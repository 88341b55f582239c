import Mathlib.Data.List.Forall2
import Sequencer.Ron.Coding

/-!
# Sequencer.Proofs.Ron.Coding

What is written by a coding is read by it, whatever library writes and reads the text.

* `Coding.Carries`: a value is written as a datum of the coding's shape, and read from that datum;
  there is a lemma for each way of putting codings together;
* `Knows`: a field of a record is known and read as a change. `fits_record` and
  `readFields?_of_knows` are about any choice of known fields in any order, `carries_record` is
  about all of them;
* `exists_print`: a value that is carried is written by every lawful library, as a text that is read
  as the value.
-/

namespace Sequencer.Ron.Coding

variable {α β : Type}

/-- A value is written as a datum of the coding's shape, and read from it. -/
structure Carries (c : Coding α) (a : α) : Prop where
  /-- What is written is of the shape. -/
  fits : Fits c.shape (c.write a)
  /-- The value is read from it. -/
  read : c.read? (c.write a) = some a

/-! ### Values in one piece -/

theorem carries_bool (b : Bool) : bool.Carries b := ⟨.bool b, rfl⟩

theorem carries_text (s : String) : text.Carries s := ⟨.text s, rfl⟩

theorem carries_single {x : Single} (h : (x == x) = true) : single.Carries x := ⟨.single h, rfl⟩

theorem carries_double {x : Double} (h : (x == x) = true) : double.Carries x := ⟨.double h, rfl⟩

theorem carries_integer {type : IntegerType} {n : Int} (hlow : type.low ≤ n)
    (hhigh : n ≤ type.high) : (integer type).Carries n :=
  ⟨.integer hlow hhigh, if_pos ⟨hlow, hhigh⟩⟩

theorem carries_via {c : Coding α} {into : β → α} {back? : α → Option β} {b : β}
    (h : c.Carries (into b)) (hback : back? (into b) = some b) : (c.via into back?).Carries b where
  fits := h.fits
  read := by
    change (c.read? (c.write (into b))).bind back? = some b
    rw [h.read, Option.bind_some, hback]

theorem carries_u32 (n : UInt32) : u32.Carries n := by
  have hlow : IntegerType.u32.low ≤ (n.toNat : Int) := Int.natCast_nonneg _
  have hhigh : (n.toNat : Int) ≤ IntegerType.u32.high := by
    have hlt := n.toNat_lt
    simp only [IntegerType.u32]
    omega
  exact carries_via (carries_integer hlow hhigh) (by simp)

theorem carries_i32 (n : Int32) : i32.Carries n :=
  carries_via (carries_integer n.le_toInt n.toInt_le) (by simp)

/-! ### Values of several pieces -/

theorem carries_option {c : Coding α} {a? : Option α} (h : ∀ a, a? = some a → c.Carries a) :
    c.option.Carries a? := by
  cases a? with
  | none => exact ⟨.absent, rfl⟩
  | some a =>
      obtain ⟨hfits, hread⟩ := h a rfl
      exact ⟨.present hfits, congrArg (Option.map some) hread⟩

theorem carries_newtype {c : Coding α} {a : α} (h : c.Carries a) (name : String) :
    (newtype name c).Carries a :=
  ⟨.newtype h.fits, h.read⟩

theorem mapM_read {c : Coding α} {as : List α} (h : ∀ a ∈ as, c.Carries a) :
    (as.map c.write).mapM c.read? = some as := by
  induction as with
  | nil => rfl
  | cons a as ih =>
      have hrest := ih fun b hb => h b (List.mem_cons_of_mem _ hb)
      rw [List.map_cons, List.mapM_cons, (h a List.mem_cons_self).read, hrest]
      rfl

theorem carries_tuple {c : Coding α} {as : List α} (hnonempty : as ≠ [])
    (h : ∀ a ∈ as, c.Carries a) {count : Nat} (hcount : as.length = count) :
    (c.tuple count).Carries as where
  fits := by
    subst hcount
    have hitems : ∀ d ∈ as.map c.write, Fits c.shape d := by
      simpa using fun a ha => (h a ha).fits
    have hfits := Fits.tuple (by simpa using hnonempty) hitems
    rwa [List.length_map] at hfits
  read := by
    change (if (as.map c.write).length = count then _ else none) = some as
    rw [if_pos (by rw [List.length_map, hcount]), mapM_read h]

theorem carries_list {c : Coding α} {as : List α} (h : ∀ a ∈ as, c.Carries a) :
    c.list.Carries as :=
  ⟨.list (by simpa using fun a ha => (h a ha).fits), mapM_read h⟩

theorem carries_units {all : List α} {name : α → String} {a : α} (ha : a ∈ all)
    (hfound : all.find? (name a == name ·) = some a) : (units all name).Carries a :=
  ⟨.unit (List.mem_map_of_mem ha), hfound⟩

/-! ### Variants -/

/-- What is found under a name is what the first element with the name is mapped to. -/
theorem lookup_map {γ : Type} (bs : List β) (name : β → String) (f : β → γ) (n : String) :
    (bs.map fun b => (name b, f b)).lookup n = (bs.find? (n == name ·)).map f := by
  induction bs with
  | nil => rfl
  | cons b bs ih =>
      rw [List.map_cons, List.lookup_cons, List.find?_cons, ih]
      split <;> rfl

/-- A value is carried by the variant of its name, if what it holds is. -/
theorem carries_choice {variants : List (Variant α)} {name : α → String} {inner : α → Datum} {a : α}
    {c : Coding β} {b : β} (h : c.Carries b) {wrap : β → α}
    (hfound : variants.find? (name a == ·.name) = some (.of (name a) c wrap))
    (hinner : inner a = c.write b) (hwrap : wrap b = a) :
    (choice variants name inner).Carries a where
  fits := by
    have hlookup : (variants.map fun v => (v.name, v.shape)).lookup (name a) = some c.shape := by
      rw [lookup_map variants Variant.name Variant.shape, hfound]
      rfl
    exact .variant hlookup (hinner ▸ h.fits)
  read := by
    change (variants.find? (name a == ·.name)).bind (·.read? (inner a)) = some a
    rw [hfound, Option.bind_some, hinner]
    change (c.read? (c.write b)).map wrap = some a
    rw [h.read, Option.map_some, hwrap]

/-! ### Records -/

/-- A field is known to a record, and read as a change. -/
def Knows (parts : List (Part α)) (field : String × Datum) (change : α → α) : Prop :=
  ∃ p, parts.find? (field.1 == ·.name) = some p ∧ Fits p.shape field.2 ∧
    p.change? field.2 = some change

theorem knows_of {parts : List (Part α)} {c : Coding β} {b : β} (h : c.Carries b) {name : String}
    {get : α → β} {set : β → α → α}
    (hfound : parts.find? (name == ·.name) = some (.of name c get set)) :
    Knows parts (name, c.write b) (set b) :=
  ⟨_, hfound, h.fits, congrArg (Option.map set) h.read⟩

variable {parts : List (Part α)} {found : List (String × Datum)} {changes : List (α → α)}

/-- Known fields, none of them twice, fit the shape of the record. -/
theorem fits_record (h : ∀ field ∈ found, ∃ change, Knows parts field change)
    (hnodup : (found.map (·.1)).Nodup) (name : String) :
    Fits (.record name (parts.map fun p => (p.name, p.shape))) (.record name found) := by
  have hlookup : ∀ n, (parts.map fun p => (p.name, p.shape)).lookup n
      = (parts.find? (n == ·.name)).map Part.shape := lookup_map parts Part.name Part.shape
  refine .record hnodup (fun field hfield => ?known) fun field hfield shape hshape => ?fits
  case known =>
    obtain ⟨_, p, hp, -, -⟩ := h field hfield
    rw [hlookup, hp]
    rfl
  case fits =>
    obtain ⟨_, p, hp, hfits, -⟩ := h field hfield
    rw [hlookup, hp] at hshape
    exact Option.some.inj hshape ▸ hfits

/-- Known fields, none of them twice, make their changes one after another. -/
theorem readFields?_of_knows (h : List.Forall₂ (Knows parts) found changes)
    (hnodup : (found.map (·.1)).Nodup) (start : α) :
    readFields? parts start found = some (changes.foldl (fun a change => change a) start) := by
  have hchanges : found.foldlM (fun a field => (change? parts field).bind fun change =>
      some (change a)) start = some (changes.foldl (fun a change => change a) start) := by
    clear hnodup
    induction h generalizing start with
    | nil => rfl
    | @cons field change found changes hknown _ ih =>
        obtain ⟨p, hp, -, hchange⟩ := hknown
        have hfield : change? parts field = some change := by
          rw [change?, hp, Option.bind_some, hchange]
        rw [List.foldlM_cons, hfield, List.foldl_cons]
        exact ih (change start)
  rw [readFields?, guard, if_pos hnodup]
  exact hchanges

theorem forall_knows (h : List.Forall₂ (Knows parts) found changes) :
    ∀ field ∈ found, ∃ change, Knows parts field change := by
  intro field hfield
  induction h with
  | nil => cases hfield
  | cons hknown _ ih =>
      rcases List.mem_cons.mp hfield with rfl | hfield
      · exact ⟨_, hknown⟩
      · exact ih hfield

theorem map_fst_fields (parts : List (Part α)) (a : α) :
    (fields parts a).map (·.1) = parts.map (·.name) := by
  rw [fields, List.map_map]
  rfl

/-- A record that needs all of its fields carries what they replace altogether. -/
theorem carries_record {a start : α} (h : List.Forall₂ (Knows parts) (fields parts a) changes)
    (hnodup : (parts.map (·.name)).Nodup)
    (hall : ∀ b, changes.foldl (fun a change => change a) b = a) (name : String) :
    (record start name parts).Carries a where
  fits := fits_record (forall_knows h) ((map_fst_fields parts a).symm ▸ hnodup) name
  read := by
    have hcomplete : parts.all (fun p => ((fields parts a).map (·.1)).contains p.name) = true := by
      rw [map_fst_fields, List.all_eq_true]
      exact fun p hp => List.contains_iff_mem.mpr (List.mem_map_of_mem hp)
    change (if parts.all (fun p => ((fields parts a).map (·.1)).contains p.name) = true then _
      else none) = some a
    rw [if_pos hcomplete, readFields?_of_knows h ((map_fst_fields parts a).symm ▸ hnodup), hall]

/-! ### Texts -/

/-- **Writing and reading.** What a coding with a readable shape carries is written by every lawful
library, and read from that text. -/
theorem exists_print {ron : Library} {Spells : Datum → String → Prop} (laws : ron.Lawful Spells)
    {c : Coding α} (hshape : c.shape.Readable) {a : α} (h : c.Carries a) (names : Bool) :
    ∃ text, c.print ron names a = some text ∧ c.parse ron text = some a := by
  obtain ⟨text, hprint, hspells⟩ := laws.print_spells hshape h.fits names
  refine ⟨text, hprint, ?_⟩
  rw [parse, laws.parse_spelled hshape h.fits hspells, Option.bind_some, h.read]

end Sequencer.Ron.Coding
