import Sequencer.Proofs.Ron.Literals
import Sequencer.Ron.Record

/-!
# Sequencer.Proofs.Ron.Reader

What is put together is read piece by piece.

`Reads.Understands` says that a reader takes a term as a value, in whatever layout the term is
written. It is shown for each way of putting readers together from those of the parts: lists,
tuples, wrappers, tags, optional values (`understands_list` and its siblings) and records, whose
fields may come in any order (`understands_record`); `document_written` is about a whole text.
-/

namespace Sequencer.Ron

open Reads

variable {α β : Type}

/-- The reader takes the term as the value, however it is laid out. -/
def Reads.Understands (read : Reads α) (t : Term) (a : α) : Prop :=
  ∀ text, Written t text → read.Takes text a

theorem Reads.Understands.map {read : Reads α} {t : Term} {a : α} (h : read.Understands t a)
    (f : α → β) : Understands (f <$> read) t (f a) :=
  fun text htext => (h text htext).map f

/-- What is read may be turned into something else by a step that takes nothing. -/
theorem Reads.Understands.bind {read : Reads α} {t : Term} {a : α} (h : read.Understands t a)
    {f : α → Reads β} {b : β} (hf : ∀ rest, f a rest = some (b, rest)) :
    (read >>= f).Understands t b := by
  intro text htext
  have htake := h text htext
  refine ⟨htake.opens, fun {rest} hends => ?_⟩
  rw [bind_apply, htake.takes hends]
  exact hf rest

/-! ### Values in one piece -/

theorem understands_plain {read : Reads α} {chars : List Char} {a : α} (h : read.Takes chars a) :
    read.Understands (.plain chars) a := by
  intro text htext
  cases htext
  exact h

theorem understands_text (chars : List Char) : text.Understands (.text chars) chars := by
  intro text htext
  cases htext
  exact takes_text chars

theorem understands_integer {type : IntegerType} {n : Int} (hlow : type.low ≤ n)
    (hhigh : n ≤ type.high) : (integer type).Understands (.integer n) n :=
  understands_plain (takes_integer hlow hhigh)

theorem understands_number {f : BinaryFormat} (hf : f.fractionBits ≤ 2 ^ f.exponentBits)
    {x : BinaryNumber f} (hx : (x == x) = true) :
    (number f).Understands (.plain x.literalChars) x :=
  understands_plain (takes_number hf hx)

theorem understands_identifier {name : String} (h : isPlainName name = true) :
    identifier.Understands (.word name) name :=
  understands_plain (takes_identifier h)

theorem understands_bool (b : Bool) : bool.Understands (.word (toString b)) b := by
  refine understands_plain ⟨by cases b <;> rfl, fun {rest} h => ?_⟩
  cases b with
  | true =>
      rw [bool, bind_apply, show (toString true).toList = "true".toList from rfl, word_append _ h]
      rfl
  | false =>
      have hfalse : word "true" ("false".toList ++ rest) = some (false, "false".toList ++ rest) :=
        word_of_head_ne (by simp) (by simp)
      rw [bool, bind_apply, show (toString false).toList = "false".toList from rfl, hfalse]
      simp only [Option.bind_some, Bool.false_eq_true, ↓reduceIte, bind_apply, word_append _ h]
      rfl

/-! ### Commas and closing brackets -/

/-- Is this a bracket that closes a run of elements? -/
def closes (c : Char) : Bool := [')', ']'].contains c

theorem eq_of_closes {c : Char} (h : closes c = true) : c = ')' ∨ c = ']' := by
  simpa [closes] using h

theorem ends_of_closes {c : Char} (h : closes c = true) (rest : List Char) :
    Ends (c :: rest) := by
  rcases eq_of_closes h with rfl | rfl <;> rfl

theorem stops_of_closes {c : Char} (h : closes c = true) (rest : List Char) :
    Stops (c :: rest) := by
  rcases eq_of_closes h with rfl | rfl <;> exact ⟨by decide, by decide⟩

theorem comma_append {before after rest : List Char} (hbefore : Gap before) (hafter : Gap after)
    (h : Stops rest) : comma (before ++ ',' :: (after ++ rest)) = some (true, rest) := by
  rw [comma, bind_apply, blanks_gap hbefore (stops_cons (by decide) (by decide) _)]
  simp [blanks_gap hafter h]

/-- There is no comma in front of a closing bracket. -/
theorem comma_closes {gap : List Char} (hgap : Gap gap) {close : Char} (h : closes close = true)
    (rest : List Char) : comma (gap ++ close :: rest) = some (false, close :: rest) := by
  have hne : close ≠ ',' := by rcases eq_of_closes h with rfl | rfl <;> decide
  have hcomma : accept [','] (close :: rest) = some (false, close :: rest) :=
    accept_of_ne (by simpa using hne)
  rw [comma, bind_apply, blanks_gap hgap (stops_of_closes h rest)]
  simp [hcomma]

/-- Where a value starts there is no closing bracket. -/
theorem sees_of_opens {text : List Char} (h : Opens text) {close : Char}
    (hclose : closes close = true) (rest : List Char) :
    sees close (text ++ rest) = some (false, text ++ rest) := by
  obtain ⟨c, hc, hopens⟩ := h.head rest
  have hnot : isOpener close = false := by rcases eq_of_closes hclose with rfl | rfl <;> rfl
  have hne : c ≠ close := by
    rintro rfl
    simp [hnot] at hopens
  rw [sees_apply, hc]
  simp [hne]

/-! ### Runs of elements -/

theorem forall₂_opens {element : Reads α} {texts : List (List Char)} {as : List α}
    (h : List.Forall₂ element.Takes texts as) : ∀ text ∈ texts, Opens text := by
  induction h with
  | nil => exact nofun
  | cons htake _ ih =>
      intro text htext
      rcases List.mem_cons.mp htext with rfl | htext
      · exact htake.opens
      · exact ih text htext

/-- In front of the closing bracket, elements start as values do. -/
theorem Listed.stops {texts : List (List Char)} {body : List Char} (h : Listed texts body)
    (hopens : ∀ text ∈ texts, Opens text) {close : Char} (hclose : closes close = true)
    (rest : List Char) : Stops (body ++ close :: rest) := by
  cases h with
  | nil => exact stops_of_closes hclose rest
  | last => rw [List.append_assoc]; exact (hopens _ List.mem_cons_self).stops _
  | cons => rw [List.append_assoc]; exact (hopens _ List.mem_cons_self).stops _

theorem Listed.length_le {texts : List (List Char)} {body : List Char} (h : Listed texts body)
    (hopens : ∀ text ∈ texts, Opens text) : texts.length ≤ body.length := by
  induction h with
  | nil => exact Nat.le_refl _
  | @last text after _ =>
      have hpos := List.length_pos_iff.mpr (hopens text List.mem_cons_self).ne_nil
      simp only [List.length_singleton, List.length_append]
      omega
  | @cons text before after body texts _ _ _ ih =>
      have hrest := ih fun text htext => hopens text (List.mem_cons_of_mem _ htext)
      simp only [List.length_cons, List.length_append]
      omega

/-- Elements with commas between them are taken one by one, up to the closing bracket. -/
theorem upTo_listed {element : Reads α} {close : Char} (hclose : closes close = true)
    {texts : List (List Char)} {body : List Char} (hbody : Listed texts body) {as : List α}
    (has : List.Forall₂ element.Takes texts as) {gap : List Char} (hgap : Gap gap)
    (rest : List Char) {bound : Nat} (hbound : texts.length < bound) :
    upTo element close bound (gap ++ (body ++ close :: rest)) = some (as, close :: rest) := by
  induction hbody generalizing as gap bound with
  | nil =>
      cases has
      obtain ⟨bound, rfl⟩ := Nat.exists_eq_add_of_lt hbound
      rw [upTo, bind_apply, List.nil_append, blanks_gap hgap (stops_of_closes hclose rest)]
      simp
  | @last text after hafter =>
      cases has with
      | @cons _ a _ _ htake hnil =>
        cases hnil
        obtain ⟨bound, rfl⟩ := Nat.exists_eq_add_of_lt hbound
        have hread := htake.takes (Ends.gap hafter (ends_of_closes hclose rest))
        rw [upTo, bind_apply, List.append_assoc, blanks_gap hgap (htake.opens.stops _)]
        simp [sees_of_opens htake.opens hclose, hread, comma_closes hafter hclose]
  | @cons text before after body texts hbefore hafter hbody ih =>
      cases has with
      | @cons _ a _ as htake has =>
        obtain ⟨bound, rfl⟩ := Nat.exists_eq_add_of_lt hbound
        have hstops := hbody.stops (forall₂_opens has) hclose rest
        have hends : Ends (before ++ ',' :: (after ++ (body ++ close :: rest))) :=
          Ends.gap hbefore rfl
        have hread := htake.takes hends
        have hbound' : texts.length < texts.length + 1 + bound := by omega
        have hrest := ih has gap_nil hbound'
        rw [upTo, bind_apply, List.append_assoc, blanks_gap hgap (htake.opens.stops _)]
        simp only [List.nil_append, List.length_cons] at hrest ⊢
        simp [sees_of_opens htake.opens hclose, hread, comma_append hbefore hafter hstops, hrest]

theorem elements_listed {element : Reads α} {close : Char} (hclose : closes close = true)
    {texts : List (List Char)} {body : List Char} (hbody : Listed texts body) {as : List α}
    (has : List.Forall₂ element.Takes texts as) {gap : List Char} (hgap : Gap gap)
    (rest : List Char) :
    elements element close (gap ++ (body ++ close :: rest)) = some (as, close :: rest) := by
  have hlength := hbody.length_le (forall₂_opens has)
  rw [elements, bind_apply, get_apply, Option.bind_some]
  -- no element is empty, so that the length of the text bounds their number
  refine upTo_listed hclose hbody has hgap rest ?_
  simp only [List.length_append]
  omega

theorem forall₂_takes {element : Reads α} {items : List Term} {texts : List (List Char)}
    {as : List α} (hitems : List.Forall₂ Written items texts)
    (h : List.Forall₂ element.Understands items as) : List.Forall₂ element.Takes texts as := by
  induction hitems generalizing as with
  | nil => cases h; exact .nil
  | cons htext _ ih =>
      cases h with
      | cons hread hrest => exact .cons (hread _ htext) (ih hrest)

/-- A list is read element by element. -/
theorem understands_list {element : Reads α} {items : List Term} {as : List α}
    (h : List.Forall₂ element.Understands items as) :
    (list element).Understands (.list items) as := by
  intro text htext
  cases htext with
  | @list _ texts gap body hitems hgap hbody =>
    refine ⟨rfl, fun {rest} _ => ?_⟩
    have hclose : closes ']' = true := by decide
    have hread := elements_listed hclose hbody (forall₂_takes hitems h) hgap rest
    rw [list, List.cons_append, List.append_assoc, List.append_assoc, bind_apply, expect_cons]
    simp [hread]

/-- So many elements with commas between them are taken one by one, and a comma behind the last. -/
theorem components_listed {component : Reads α} {close : Char} (hclose : closes close = true)
    {texts : List (List Char)} {body : List Char} (hbody : Listed texts body)
    (hnonempty : texts ≠ []) {as : List α} (has : List.Forall₂ component.Takes texts as)
    {gap : List Char} (hgap : Gap gap) (rest : List Char) :
    components component texts.length (gap ++ (body ++ close :: rest))
      = some (as, close :: rest) := by
  induction hbody generalizing as gap with
  | nil => exact absurd rfl hnonempty
  | @last text after hafter =>
      cases has with
      | @cons _ a _ _ htake hnil =>
        cases hnil
        have hread := htake.takes (Ends.gap hafter (ends_of_closes hclose rest))
        rw [List.length_singleton, components, bind_apply, List.append_assoc,
          blanks_gap hgap (htake.opens.stops _)]
        simp [hread, comma_closes hafter hclose]
  | @cons text before after body texts hbefore hafter hbody ih =>
      cases has with
      | @cons _ a _ as htake has =>
        have hstops := hbody.stops (forall₂_opens has) hclose rest
        have hends : Ends (before ++ ',' :: (after ++ (body ++ close :: rest))) :=
          Ends.gap hbefore rfl
        have hread := htake.takes hends
        have hcomma := comma_append hbefore hafter hstops
        cases texts with
        | nil =>
            cases has
            cases hbody
            rw [List.length_singleton, components, bind_apply, List.append_assoc,
              blanks_gap hgap (htake.opens.stops _)]
            rw [List.nil_append] at hread hcomma
            simp [hread, hcomma]
        | cons next texts =>
            have hrest := ih (List.cons_ne_nil _ _) has gap_nil
            rw [List.nil_append, List.length_cons] at hrest
            rw [List.length_cons, List.length_cons, components, bind_apply, List.append_assoc,
              blanks_gap hgap (htake.opens.stops _)]
            · simp [hread, hcomma, hrest]
            -- a comma is asked for here, since another component comes
            · exact Nat.succ_ne_zero _

/-- A tuple is read component by component. -/
theorem understands_tuple {component : Reads α} {items : List Term} (hnonempty : items ≠ [])
    {as : List α} (h : List.Forall₂ component.Understands items as) {count : Nat}
    (hcount : items.length = count) :
    (tuple component count).Understands (.tuple none items) as := by
  intro text htext
  cases htext with
  | @tuple _ _ texts heading gap body hheading hitems hgap hbody =>
    cases hheading
    have hlength : texts.length = count := hitems.length_eq.symm.trans hcount
    have htexts : texts ≠ [] := by
      rintro rfl
      exact hnonempty (List.length_eq_zero_iff.mp hitems.length_eq)
    refine ⟨rfl, fun {rest} _ => ?_⟩
    have hclose : closes ')' = true := by decide
    have hread := components_listed hclose hbody htexts (forall₂_takes hitems h) hgap rest
    rw [hlength] at hread
    rw [tuple, if_neg (by simp), List.nil_append, List.cons_append, List.append_assoc,
      List.append_assoc, bind_apply, expect_cons]
    simp [hread]

/-! ### Wrappers and tags -/

/-- One value between parentheses is read, behind blanks, and in front of a comma or not. -/
theorem enclosed_listed {inner : Reads α} {text body : List Char} {a : α} (h : inner.Takes text a)
    (hbody : Listed [text] body) {gap gap' : List Char} (hgap : Gap gap) (hgap' : Gap gap')
    (rest : List Char) :
    enclosed inner (gap ++ '(' :: (gap' ++ (body ++ ')' :: rest))) = some (a, rest) := by
  have hopens : ∀ other ∈ [text], Opens other := by simpa using h.opens
  have hclose : closes ')' = true := by decide
  have hread : ∃ more, inner (body ++ ')' :: rest) = some (a, more) ∧
      ∃ found, comma more = some (found, ')' :: rest) := by
    cases hbody with
    | @last _ after hafter =>
        rw [List.append_assoc]
        exact ⟨_, h.takes (Ends.gap hafter (ends_of_closes hclose rest)), false,
          comma_closes hafter hclose rest⟩
    | @cons _ before after body _ hbefore hafter hbody =>
        cases hbody
        rw [List.append_assoc, List.append_assoc, List.cons_append, List.append_assoc]
        exact ⟨_, h.takes (Ends.gap hbefore rfl), true,
          comma_append hbefore hafter (stops_of_closes hclose rest)⟩
  obtain ⟨more, hinner, found, hcomma⟩ := hread
  rw [enclosed, bind_apply, blanks_gap hgap (stops_cons (by decide) (by decide) _)]
  simp [blanks_gap hgap' (hbody.stops hopens hclose rest), hinner, hcomma]

/-- What a value in parentheses is laid out as, and that it is read between them. -/
theorem written_enclosed {name : Option String} {t : Term} {text : List Char}
    (h : Written (.tuple name [t]) text) :
    ∃ heading inside, Heading name heading ∧ text = heading ++ '(' :: inside ∧
      ∀ (inner : Reads α) (a : α), inner.Understands t a → ∀ gap, Gap gap → ∀ rest,
        enclosed inner (gap ++ '(' :: (inside ++ rest)) = some (a, rest) := by
  cases h with
  | @tuple _ _ texts heading gap body hheading hitems hgap hbody =>
    refine ⟨heading, _, hheading, rfl, fun inner a hinner gap' hgap' rest => ?_⟩
    cases hitems with
    | cons htext hnil =>
      cases hnil
      rw [List.append_assoc, List.append_assoc]
      exact enclosed_listed (hinner _ htext) hbody hgap' hgap rest

/-- Where a parenthesis comes there is no identifier. -/
theorem identifier_paren (rest : List Char) : identifier ('(' :: rest) = none := by
  rw [identifier_of_not_raw (by simp)]
  rfl

theorem attempt_of_some {read : Reads α} {cs rest : List Char} {a : α}
    (h : read cs = some (a, rest)) : attempt read cs = some (some a, rest) := by
  simp [attempt, h]

theorem attempt_of_none {read : Reads α} {cs : List Char} (h : read cs = none) :
    attempt read cs = some (none, cs) := by
  simp [attempt, h]

/-- The name of a type is taken from a heading, if it is there. -/
theorem typeName_heading {name : String} (hname : isPlainName name = true) {name? : Option String}
    (hname? : name? = none ∨ name? = some name) {heading : List Char}
    (h : Heading name? heading) (rest : List Char) :
    Opens (heading ++ '(' :: rest) ∧ ∃ gap, Gap gap ∧
      typeName {} name (heading ++ '(' :: rest) = some ((), gap ++ '(' :: rest) := by
  have htake := takes_identifier hname
  cases h with
  | none =>
      refine ⟨rfl, [], gap_nil, ?_⟩
      rw [List.nil_append, typeName, bind_apply, attempt_of_none (identifier_paren rest)]
      rfl
  | @some name gap hgap =>
      obtain rfl : name = _ := by simpa using hname?
      refine ⟨?_, gap, hgap, ?_⟩
      · rw [List.append_assoc]
        exact htake.opens.append _
      · have hends : Ends (gap ++ '(' :: rest) := Ends.gap hgap rfl
        have hread := attempt_of_some (htake.takes hends)
        rw [List.append_assoc, typeName, bind_apply, hread]
        simp

/-- A wrapped value is read, whether the wrapper is named or not. -/
theorem understands_wrapped {name : String} (hname : isPlainName name = true) {inner : Reads α}
    {t : Term} {a : α} (h : inner.Understands t a) {name? : Option String}
    (hname? : name? = none ∨ name? = some name) :
    (wrapped {} name inner).Understands (.tuple name? [t]) a := by
  intro text htext
  obtain ⟨heading, inside, hheading, rfl, hread⟩ := written_enclosed htext
  refine ⟨(typeName_heading hname hname? hheading inside).1, fun {rest} _ => ?_⟩
  obtain ⟨-, gap, hgap, htype⟩ := typeName_heading hname hname? hheading (inside ++ rest)
  rw [wrapped, if_neg (by simp), List.append_assoc, List.cons_append, bind_apply, htype]
  exact hread inner a h gap hgap rest

/-! ### Optional values -/

theorem understands_none {marked unmarked : Reads α} :
    (option {} marked unmarked).Understands (.word "None") none := by
  refine understands_plain ⟨rfl, fun {rest} h => ?_⟩
  rw [option, bind_apply, word_append _ h]
  rfl

theorem understands_some {marked unmarked : Reads α} {t : Term} {a : α}
    (h : marked.Understands t a) :
    (option {} marked unmarked).Understands (.tagged "Some" t) (some a) := by
  intro text htext
  obtain ⟨heading, inside, hheading, rfl, hread⟩ := written_enclosed htext
  cases hheading with
  | @some _ gap hgap =>
    refine ⟨rfl, fun {rest} _ => ?_⟩
    have hnone : word "None" ("Some".toList ++ (gap ++ '(' :: (inside ++ rest)))
        = some (false, "Some".toList ++ (gap ++ '(' :: (inside ++ rest))) :=
      word_of_head_ne (by simp) (by simp)
    have hends : Ends (gap ++ '(' :: (inside ++ rest)) := Ends.gap hgap rfl
    have hsome := word_append "Some" hends
    have hblanks := blanks_gap hgap (stops_cons (c := '(') (by decide) (by decide) (inside ++ rest))
    have hinner := hread marked a h [] gap_nil rest
    rw [List.nil_append] at hinner
    rw [List.append_assoc, List.append_assoc, List.cons_append, option, bind_apply, hnone]
    simp only [Option.bind_some, Bool.false_eq_true, ↓reduceIte, bind_apply, hsome, hblanks,
      sees_cons, hinner, pure_apply]

/-- A plain tag is taken as an identifier, and the value in parentheses behind it is read. -/
theorem written_tagged {name : String} (hname : isPlainName name = true) {t : Term}
    {text : List Char} (h : Written (.tagged name t) text) :
    Opens text ∧ ∀ rest, ∃ more, identifier (text ++ rest) = some (name, more) ∧
      ∀ (inner : Reads α) (a : α), inner.Understands t a → enclosed inner more = some (a, rest) := by
  obtain ⟨heading, inside, hheading, rfl, hread⟩ := written_enclosed h
  cases hheading with
  | @some _ gap hgap =>
    have htake := takes_identifier hname
    refine ⟨by rw [List.append_assoc]; exact htake.opens.append _, fun rest => ?_⟩
    have hends : Ends (gap ++ '(' :: (inside ++ rest)) := Ends.gap hgap rfl
    refine ⟨gap ++ '(' :: (inside ++ rest), ?_, fun inner a hinner =>
      hread inner a hinner gap hgap rest⟩
    simpa using htake.takes hends

/-! ### Records -/

/-- A field is known to a record by its name, and its value is read. -/
def Known (fields : List (String × Reads α)) (part : String × Term) (found : String × α) : Prop :=
  part.1 = found.1 ∧ isPlainName part.1 = true ∧
    ∃ read, fields.lookup part.1 = some read ∧ read.Understands part.2 found.2

/-- A known field is taken with its name and its value. -/
theorem takes_field {fields : List (String × Reads α)} {part : String × Term} {found : String × α}
    (h : Known fields part found) (depth : Nat) {text : List Char}
    (htext : WrittenField part text) : (field {} fields depth).Takes text (some found) := by
  obtain ⟨hsame, hname, read, hlookup, hread⟩ := h
  cases htext with
  | @mk name value before after text hbefore hafter htext =>
    have hvalue := hread _ htext
    have htake := takes_identifier hname
    refine ⟨htake.opens.append _, fun {rest} hends => ?_⟩
    have hbehind : Ends (before ++ ':' :: (after ++ (text ++ rest))) := Ends.gap hbefore rfl
    have hidentifier := htake.takes hbehind
    have hcolon : colon (before ++ ':' :: (after ++ (text ++ rest))) = some ((), text ++ rest) := by
      rw [colon, bind_apply, blanks_gap hbefore (stops_cons (by decide) (by decide) _)]
      simp [blanks_gap hafter (hvalue.opens.stops rest)]
    have hfound : (name, found.2) = found := by rw [show name = found.1 from hsame]
    simp only [List.append_assoc, List.cons_append]
    rw [field, bind_apply, hidentifier]
    simp only [Option.bind_some, bind_apply, hcolon, hlookup, hvalue.takes hends, pure_apply, hfound]

theorem forall₂_takes_field {fields : List (String × Reads α)} {parts : List (String × Term)}
    {found : List (String × α)} (hparts : List.Forall₂ (Known fields) parts found) (depth : Nat)
    {texts : List (List Char)} (htexts : List.Forall₂ WrittenField parts texts) :
    List.Forall₂ (field {} fields depth).Takes texts (found.map some) := by
  induction hparts generalizing texts with
  | nil => cases htexts; exact .nil
  | cons hpart _ ih =>
      cases htexts with
      | cons htext htexts => exact .cons (takes_field hpart depth htext) (ih htexts)

/-- **Records.** A record is read, whether it is named or not, from any known fields in any
order. -/
theorem understands_record {name : String} (hname : isPlainName name = true)
    {name? : Option String} (hname? : name? = none ∨ name? = some name)
    {fields : List (String × Reads α)} {parts : List (String × Term)} {found : List (String × α)}
    (hparts : List.Forall₂ (Known fields) parts found) (depth : Nat) :
    (record {} depth name fields).Understands (.record name? parts) found := by
  intro text htext
  cases htext with
  | @record _ _ texts heading gap body hheading hfields hgap hbody =>
    refine ⟨(typeName_heading hname hname? hheading _).1, fun {rest} _ => ?_⟩
    obtain ⟨-, gap', hgap', htype⟩ :=
      typeName_heading hname hname? hheading (gap ++ (body ++ ')' :: rest))
    have hclose : closes ')' = true := by decide
    have helements :=
      elements_listed hclose hbody (forall₂_takes_field hparts (between depth) hfields) hgap rest
    have hfound : (found.map some).filterMap id = found := by
      rw [List.filterMap_map, Function.id_comp, List.filterMap_some]
    have hblanks := blanks_gap hgap'
      (stops_cons (c := '(') (by decide) (by decide) (gap ++ (body ++ ')' :: rest)))
    simp only [List.append_assoc, List.cons_append, List.nil_append]
    rw [record, if_neg Bool.false_ne_true, bind_apply, htype]
    simp only [Option.bind_some, bind_apply, hblanks, expect_cons, helements, hfound, pure_apply]

/-! ### Whole texts -/

/-- **Texts.** A text that is a term in some layout, with blanks around it, is read as the term's
value. -/
theorem document_written {value : Extensions → Reads α} {t : Term} {a : α}
    (h : (value {}).Understands t a) {text before after : List Char} (htext : Written t text)
    (hbefore : Gap before) (hafter : Gap after) :
    document value (before ++ (text ++ after)) = some a := by
  have htake := h text htext
  have hends : Ends after := by simpa using Ends.gap hafter (show Ends [] from trivial)
  have hblanks : blanks after = some ((), []) := by
    simpa using blanks_gap hafter (show Stops [] from trivial)
  have hsharp : sees '#' (text ++ after) = some (false, text ++ after) := by
    obtain ⟨c, hc, hopens⟩ := htake.opens.head after
    have hne : c ≠ '#' := by
      rintro rfl
      cases hopens
    rw [sees_apply, hc]
    simp [hne]
  have hattributes : ∀ bound,
      attributes (bound + 1) {} (text ++ after) = some ({}, text ++ after) := by
    intro bound
    rw [attributes, bind_apply, hsharp]
    rfl
  rw [document, StateT.run']
  simp only [bind_apply, blanks_gap hbefore (htake.opens.stops after), get_apply, Option.bind_some,
    hattributes, htake.takes hends, hblanks]
  rfl

end Sequencer.Ron
