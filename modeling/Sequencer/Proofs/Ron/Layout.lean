import Mathlib.Data.List.Forall2
import Sequencer.Ron.Lexer
import Sequencer.Ron.Term

/-!
# Sequencer.Proofs.Ron.Layout

The ways in which a term may be laid out as text.

* `Gap`: blanks, which may stand around the elements of lists, tuples and records, behind their
  commas, around the colon of a field, and in front of an opening parenthesis that follows a name;
* `Listed`: elements with commas between them, and one behind the last or not;
* `Written`: a term in any of its layouts; `written_pretty`: the one that `Term.pretty` chooses is
  among them.
-/

namespace Sequencer.Ron

/-- A run of blanks. -/
def Gap (cs : List Char) : Prop := ∀ c ∈ cs, isBlank c = true

theorem gap_nil : Gap [] := nofun

theorem gap_cons {c : Char} {cs : List Char} (hc : isBlank c = true) (h : Gap cs) :
    Gap (c :: cs) := by
  intro d hd
  rcases List.mem_cons.mp hd with rfl | hd
  · exact hc
  · exact h d hd

theorem gap_indentation (level : Nat) : Gap (Term.indentation level) := by
  intro c hc
  rw [List.eq_of_mem_replicate hc]
  rfl

/-- Elements with commas between them, in front of a closing character. A comma may stand behind the
last one. -/
inductive Listed : List (List Char) → List Char → Prop
  | nil : Listed [] []
  | last {text after : List Char} : Gap after → Listed [text] (text ++ after)
  | cons {text before after body : List Char} {texts : List (List Char)} :
      Gap before → Gap after → Listed texts body →
        Listed (text :: texts) (text ++ (before ++ ',' :: (after ++ body)))

/-- What stands in front of an opening parenthesis: a name, and blanks behind it, or nothing. -/
inductive Heading : Option String → List Char → Prop
  | none : Heading none []
  | some (name : String) {gap : List Char} : Gap gap → Heading (some name) (name.toList ++ gap)

mutual

/-- A term in one of its layouts. -/
inductive Written : Term → List Char → Prop
  | plain (chars : List Char) : Written (.plain chars) chars
  | text (chars : List Char) : Written (.text chars) (Text.quotedChars chars)
  | list {items : List Term} {texts : List (List Char)} {gap body : List Char} :
      List.Forall₂ Written items texts → Gap gap → Listed texts body →
        Written (.list items) ('[' :: (gap ++ (body ++ [']'])))
  | tuple {name : Option String} {items : List Term} {texts : List (List Char)}
      {heading gap body : List Char} :
      Heading name heading → List.Forall₂ Written items texts → Gap gap → Listed texts body →
        Written (.tuple name items) (heading ++ '(' :: (gap ++ (body ++ [')'])))
  | record {name : Option String} {fields : List (String × Term)} {texts : List (List Char)}
      {heading gap body : List Char} :
      Heading name heading → List.Forall₂ WrittenField fields texts → Gap gap → Listed texts body →
        Written (.record name fields) (heading ++ '(' :: (gap ++ (body ++ [')'])))

/-- A field in one of its layouts. -/
inductive WrittenField : String × Term → List Char → Prop
  | mk (name : String) {value : Term} {before after text : List Char} :
      Gap before → Gap after → Written value text →
        WrittenField (name, value) (name.toList ++ (before ++ ':' :: (after ++ text)))

end

/-! ### The chosen layout -/

theorem heading_nameChars (name : Option String) : Heading name (Term.nameChars name) := by
  cases name with
  | none => exact .none
  | some name => simpa [Term.nameChars] using Heading.some name gap_nil

mutual

/-- Terms are written in one of their layouts. -/
theorem written_pretty (level : Nat) (t : Term) : Written t (t.pretty level) := by
  match t with
  | .plain chars => exact .plain chars
  | .text chars => exact .text chars
  | .list [] => exact .list .nil gap_nil .nil
  | .list (item :: rest) =>
      obtain ⟨texts, gap, body, heq, hitems, hgap, hbody⟩ :=
        listed_prettyLines (level + 1) level (item :: rest)
      have hlist := Written.list hitems (gap_cons (c := '\n') rfl hgap) hbody
      rwa [List.cons_append, ← List.append_assoc gap, ← heq] at hlist
  | .tuple name items =>
      obtain ⟨texts, hitems, hbody⟩ := listed_prettyItems level items
      exact .tuple (heading_nameChars name) hitems gap_nil hbody
  | .record name [] => exact .record (heading_nameChars name) .nil gap_nil .nil
  | .record name (field :: rest) =>
      obtain ⟨texts, gap, body, heq, hfields, hgap, hbody⟩ :=
        listed_prettyFields (level + 1) level (field :: rest)
      have hrecord := Written.record (heading_nameChars name) hfields
        (gap_cons (c := '\n') rfl hgap) hbody
      rwa [List.cons_append, ← List.append_assoc gap, ← heq] at hrecord
termination_by structural t

theorem listed_prettyLines (level outer : Nat) (items : List Term) :
    ∃ texts gap body,
      Term.prettyLines level items ++ Term.indentation outer = gap ++ body ∧
        List.Forall₂ Written items texts ∧ Gap gap ∧ Listed texts body := by
  match items with
  | [] => exact ⟨[], Term.indentation outer, [], by simp [Term.prettyLines], .nil,
      gap_indentation outer, .nil⟩
  | item :: rest =>
      obtain ⟨texts, gap, body, heq, hitems, hgap, hbody⟩ := listed_prettyLines level outer rest
      refine ⟨_, Term.indentation level, _, ?_, .cons (written_pretty level item) hitems,
        gap_indentation level, .cons gap_nil (gap_cons (c := '\n') rfl hgap) hbody⟩
      simp [Term.prettyLines, heq]
termination_by structural items

theorem listed_prettyItems (level : Nat) (items : List Term) :
    ∃ texts, List.Forall₂ Written items texts ∧ Listed texts (Term.prettyItems level items) := by
  match items with
  | [] => exact ⟨[], .nil, .nil⟩
  | [item] =>
      refine ⟨_, .cons (written_pretty level item) .nil, ?_⟩
      simpa [Term.prettyItems] using Listed.last gap_nil
  | item :: next :: rest =>
      obtain ⟨texts, hitems, hbody⟩ := listed_prettyItems level (next :: rest)
      exact ⟨_, .cons (written_pretty level item) hitems,
        .cons gap_nil (gap_cons (c := ' ') rfl gap_nil) hbody⟩
termination_by structural items

theorem listed_prettyFields (level outer : Nat) (fields : List (String × Term)) :
    ∃ texts gap body,
      Term.prettyFields level fields ++ Term.indentation outer = gap ++ body ∧
        List.Forall₂ WrittenField fields texts ∧ Gap gap ∧ Listed texts body := by
  match fields with
  | [] => exact ⟨[], Term.indentation outer, [], by simp [Term.prettyFields], .nil,
      gap_indentation outer, .nil⟩
  | (name, value) :: rest =>
      obtain ⟨texts, gap, body, heq, hfields, hgap, hbody⟩ := listed_prettyFields level outer rest
      have hfield := WrittenField.mk name gap_nil (gap_cons (c := ' ') rfl gap_nil)
        (written_pretty level value)
      refine ⟨_, Term.indentation level, _, ?_, .cons hfield hfields, gap_indentation level,
        .cons gap_nil (gap_cons (c := '\n') rfl hgap) hbody⟩
      simp [Term.prettyFields, heq]
termination_by structural fields

end

end Sequencer.Ron
