import Sequencer.Proofs.Ron.Reader
import Sequencer.Ron.Standard

/-!
# Sequencer.Proofs.Ron.Standard

The standard library keeps the laws of a library of RON.

* `Spelled`: the texts that are RON for a datum: its term, with names or without, in any layout and
  with blanks around it;
* `Fits.understands`: the reader of a shape takes every datum that fits it, by induction on how it
  fits;
* `lawful_standard`: so what is written is read back.
-/

namespace Sequencer.Ron

open Reads

/-- A text of the datum's term, in any layout and with blanks around it. -/
def Spelled (d : Datum) (text : String) : Prop :=
  ∃ (names : Bool) (before body after : List Char),
    Gap before ∧ Gap after ∧ Written (d.toTerm names) body ∧
      text = .ofList (before ++ (body ++ after))

/-! ### Terms of several data -/

namespace Datum

theorem heading_cases (names : Bool) (name : String) :
    heading names name = none ∨ heading names name = some name := by
  cases names with
  | false => exact .inl rfl
  | true => exact .inr rfl

theorem toTerms_eq_map (names : Bool) (ds : List Datum) :
    toTerms names ds = ds.map (toTerm names) := by
  induction ds with
  | nil => rfl
  | cons d ds ih => rw [toTerms, ih, List.map_cons]

theorem fieldTerms_eq_map (names : Bool) (fields : List (String × Datum)) :
    fieldTerms names fields = fields.map fun field => (field.1, field.2.toTerm names) := by
  induction fields with
  | nil => rfl
  | cons field fields ih => rw [fieldTerms, ih, List.map_cons]

end Datum

/-! ### Shapes by name -/

namespace Shape

theorem lookup_readers (e : Extensions) (shapes : List (String × Shape)) (depth : Nat) (bare : Bool)
    (name : String) :
    (readers e shapes depth bare).lookup name
      = (shapes.lookup name).map fun shape => shape.reader e depth bare := by
  induction shapes with
  | nil => rfl
  | cons shape shapes ih =>
      rw [readers, List.lookup_cons, List.lookup_cons, ih]
      split <;> rfl

/-- The name under which a shape is found is one of the names, and so are those of the shape. -/
theorem mem_allNames_of_lookup {shapes : List (String × Shape)} {name : String} {shape : Shape}
    (h : shapes.lookup name = some shape) :
    name ∈ allNames shapes ∧ ∀ other ∈ shape.names, other ∈ allNames shapes := by
  induction shapes with
  | nil => cases h
  | cons first shapes ih =>
      rw [List.lookup_cons] at h
      rw [allNames]
      split at h
      next heq =>
        obtain rfl := Option.some.inj h
        rw [eq_of_beq heq]
        exact ⟨List.mem_cons_self, fun other hother =>
          List.mem_cons_of_mem _ (List.mem_append_left _ hother)⟩
      next =>
        obtain ⟨hname, hnames⟩ := ih h
        exact ⟨List.mem_cons_of_mem _ (List.mem_append_right _ hname), fun other hother =>
          List.mem_cons_of_mem _ (List.mem_append_right _ (hnames other hother))⟩

end Shape

/-! ### What fits is read -/

theorem single_fits : BinaryFormat.single.fractionBits ≤ 2 ^ BinaryFormat.single.exponentBits := by
  decide

theorem double_fits : BinaryFormat.double.fractionBits ≤ 2 ^ BinaryFormat.double.exponentBits := by
  decide

/-- All names of a shape are plain. -/
def Shape.Plain (s : Shape) : Prop := ∀ name ∈ s.names, isPlainName name = true

/-- A datum that fits a shape with plain names is read by the shape's reader, in any layout. -/
theorem Fits.understands {s : Shape} {d : Datum} (h : Fits s d) (hplain : s.Plain) (names : Bool)
    (depth : Nat) : (s.reader {} depth false).Understands (d.toTerm names) d := by
  induction h generalizing depth with
  -- leaves
  | bool b => exact (understands_bool b).map Datum.bool
  | integer hlow hhigh => exact (understands_integer hlow hhigh).map Datum.integer
  | single hx => exact (understands_number single_fits hx).map Datum.single
  | double hx => exact (understands_number double_fits hx).map Datum.double
  | text s =>
      have hread := (understands_text s.toList).map fun cs => Datum.text (.ofList cs)
      rw [String.ofList_toList] at hread
      exact hread
  -- values in a heading
  | absent => exact understands_none.bind fun _ => rfl
  | present _ ih => exact (understands_some (ih hplain _)).bind fun _ => rfl
  | @unit names name hname =>
      refine (understands_identifier (hplain name hname)).bind fun rest => ?_
      simp [hname]
  | @variant variants name inner d hlookup _ ih =>
      obtain ⟨hname, hnames⟩ := Shape.mem_allNames_of_lookup hlookup
      have hinner := ih (fun other hother => hplain other (hnames other hother)) (between depth)
      intro text htext
      obtain ⟨hopens, hread⟩ := written_tagged (α := Datum) (hplain name hname) htext
      refine ⟨hopens, fun {rest} _ => ?_⟩
      obtain ⟨more, hidentifier, henclosed⟩ := hread rest
      rw [Shape.reader, bind_apply, hidentifier]
      simp [Shape.lookup_readers, hlookup, henclosed _ _ hinner]
  | @newtype name inner d _ ih =>
      have hname : isPlainName name = true := hplain name List.mem_cons_self
      have hinner := ih (fun other hother => hplain other (List.mem_cons_of_mem _ hother))
        (between depth)
      exact (understands_wrapped hname hinner (Datum.heading_cases names name)).map _
  -- lists and records, part by part
  | @tuple item items hnonempty _ ih =>
      have hitems : List.Forall₂ (item.reader {} (between depth) false).Understands
          (Datum.toTerms names items) items := by
        rw [Datum.toTerms_eq_map, List.forall₂_map_left_iff, List.forall₂_same]
        exact fun d hd => ih d hd hplain _
      have hterms : Datum.toTerms names items ≠ [] := by simpa [Datum.toTerms_eq_map]
      have hcount : (Datum.toTerms names items).length = items.length := by
        rw [Datum.toTerms_eq_map, List.length_map]
      exact (understands_tuple hterms hitems hcount).map _
  | @list item items _ ih =>
      have hitems : List.Forall₂ (item.reader {} (between depth) false).Understands
          (Datum.toTerms names items) items := by
        rw [Datum.toTerms_eq_map, List.forall₂_map_left_iff, List.forall₂_same]
        exact fun d hd => ih d hd hplain _
      exact (understands_list hitems).map _
  | @record name fields parts _ hknown _ ih =>
      have hname : isPlainName name = true := hplain name List.mem_cons_self
      have hparts : List.Forall₂ (Known (Shape.readers {} fields (between depth) false))
          (Datum.fieldTerms names parts) parts := by
        rw [Datum.fieldTerms_eq_map, List.forall₂_map_left_iff, List.forall₂_same]
        intro part hpart
        obtain ⟨shape, hshape⟩ := Option.isSome_iff_exists.mp (hknown part hpart)
        obtain ⟨hpartName, hnames⟩ := Shape.mem_allNames_of_lookup hshape
        have hread := ih part hpart shape hshape
          (fun other hother => hplain other (List.mem_cons_of_mem _ (hnames other hother)))
          (between depth)
        refine ⟨rfl, hplain part.1 (List.mem_cons_of_mem _ hpartName), _, ?_, hread⟩
        rw [Shape.lookup_readers, hshape, Option.map_some]
      exact (understands_record hname (Datum.heading_cases names name) hparts depth).map _

/-- **The standard library.** What fits a readable shape is written in one of its layouts, and read
from all of them. -/
theorem lawful_standard : standard.Lawful Spelled where
  print_spells := by
    intro shape d _ _ names
    refine ⟨_, rfl, names, [], _, [], gap_nil, gap_nil, written_pretty 0 (d.toTerm names), ?_⟩
    rw [List.nil_append, List.append_nil]
  parse_spelled := by
    rintro shape d text ⟨-, hplain⟩ hfits ⟨names, before, body, after, hbefore, hafter, hbody, rfl⟩
    have hread := hfits.understands hplain names maxDepth
    change document (fun e => shape.reader e maxDepth false) (String.ofList _).toList = some d
    rw [String.toList_ofList]
    exact document_written hread hbody hbefore hafter

end Sequencer.Ron
