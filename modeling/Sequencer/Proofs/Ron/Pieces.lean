import Mathlib.Data.Option.Basic
import Sequencer.Proofs.Ron.Layout
import Sequencer.Ron.Library

/-!
# Sequencer.Proofs.Ron.Pieces

How readers run, and the smallest pieces that they take.

* `Ends`, `Opens`: what may follow a value or a name, and what a value may start with;
* `blanks_gap`: blanks are skipped up to where something else comes;
* `Reads.Takes`: a reader takes a text as a value, and stops where the value ends;
* `word_append`, `takes_identifier`: words and names.
-/

namespace Sequencer.Ron

open Reads

/-! ### Running a reader -/

namespace Reads

variable {α β : Type}

@[simp] theorem pure_apply (a : α) (cs : List Char) : (pure a : Reads α) cs = some (a, cs) := rfl

@[simp] theorem bind_apply (read : Reads α) (f : α → Reads β) (cs : List Char) :
    (read >>= f) cs = (read cs).bind fun p => f p.1 p.2 := rfl

@[simp] theorem map_apply (f : α → β) (read : Reads α) (cs : List Char) :
    (f <$> read) cs = (read cs).map fun p => (f p.1, p.2) := by
  change (read cs).bind _ = _
  cases read cs <;> rfl

@[simp] theorem get_apply (cs : List Char) : (get : Reads (List Char)) cs = some (cs, cs) := rfl

@[simp] theorem set_apply (rest cs : List Char) :
    (set rest : Reads PUnit) cs = some (⟨⟩, rest) := rfl

@[simp] theorem failure_apply (cs : List Char) : (failure : Reads α) cs = none := rfl

@[simp] theorem guard_apply (p : Prop) [Decidable p] (cs : List Char) :
    (guard p : Reads Unit) cs = if p then some ((), cs) else none := by
  rw [guard]
  split <;> rfl

@[simp] theorem lift_apply (a? : Option α) (cs : List Char) :
    (liftM a? : Reads α) cs = a?.map (·, cs) := by
  cases a? <;> rfl

@[simp] theorem orElse_apply (read other : Reads α) (cs : List Char) :
    (read <|> other) cs = (read cs <|> other cs) := rfl

theorem sees_apply (c : Char) (cs : List Char) :
    sees c cs = some (cs.head? == some c, cs) := rfl

@[simp] theorem sees_cons (c : Char) (rest : List Char) :
    sees c (c :: rest) = some (true, c :: rest) := by
  simp [sees_apply]

@[simp] theorem peek?_apply (cs : List Char) : peek? cs = some (cs.head?, cs) := rfl

@[simp] theorem next_cons (c : Char) (cs : List Char) : next (c :: cs) = some (c, cs) := rfl

theorem span_apply (p : Char → Bool) (cs : List Char) :
    span p cs = some (cs.takeWhile p, cs.dropWhile p) := rfl

theorem accept_append (text rest : List Char) : accept text (text ++ rest) = some (true, rest) := by
  simp [accept]

theorem accept_of_ne {text cs : List Char} (h : cs.take text.length ≠ text) :
    accept text cs = some (false, cs) := by
  simp [accept, h]

@[simp] theorem accept_cons (c : Char) (rest : List Char) :
    accept [c] (c :: rest) = some (true, rest) :=
  accept_append [c] rest

@[simp] theorem expect_cons (c : Char) (rest : List Char) :
    expect c (c :: rest) = some ((), rest) := by
  simp [expect]

end Reads

/-! ### What may follow, and what may start -/

/-- May this character follow a value or a name? -/
def isEnd (c : Char) : Bool := isBlank c || [',', ':', '(', ')', ']'].contains c

/-- Nothing follows that would go on with a value or a name. -/
def Ends : List Char → Prop
  | [] => True
  | c :: _ => isEnd c = true

/-- May a value start with this character, in any place where one is read? -/
def isOpener (c : Char) : Bool := !(isBlank c || ['/', '#', ')', ']', ','].contains c)

/-- The text starts as values do. -/
def Opens : List Char → Prop
  | [] => False
  | c :: _ => isOpener c = true

/-- Neither a blank nor a comment comes first. -/
def Stops : List Char → Prop
  | [] => True
  | c :: _ => isBlank c = false ∧ c ≠ '/'

/-- A test that fails on each of the few characters that may follow a value. -/
theorem eq_false_of_isEnd {p : Char → Bool}
    (h : [' ', '\t', '\n', '\r', '\x0B', '\x0C', '\u0085', '\u200E', '\u200F', '\u2028', '\u2029',
      ',', ':', '(', ')', ']'].any p = false) {c : Char} (hc : isEnd c = true) : p c = false := by
  refine Bool.not_eq_true _ ▸ List.any_eq_false.mp h c ?_
  simpa [isEnd, isBlank, or_assoc] using hc

theorem isIdentifierPart_of_isEnd {c : Char} (hc : isEnd c = true) :
    Text.isIdentifierPart c = false :=
  eq_false_of_isEnd (by decide +kernel) hc

theorem Ends.head {rest : List Char} (h : Ends rest) {c : Char} (hc : rest.head? = some c) :
    isEnd c = true := by
  cases rest with
  | nil => cases hc
  | cons d rest =>
      obtain rfl := Option.some.inj hc
      exact h

/-- A gap in front of something that may follow may follow. -/
theorem Ends.gap {gap rest : List Char} (hgap : Gap gap) (h : Ends rest) : Ends (gap ++ rest) := by
  cases gap with
  | nil => exact h
  | cons c gap =>
      have hblank : isBlank c = true := hgap c List.mem_cons_self
      simp [Ends, isEnd, hblank]

theorem stops_cons {c : Char} (hblank : isBlank c = false) (hslash : c ≠ '/') (rest : List Char) :
    Stops (c :: rest) :=
  ⟨hblank, hslash⟩

theorem Opens.ne_nil {text : List Char} (h : Opens text) : text ≠ [] := by
  rintro rfl
  exact h

theorem Opens.append {text : List Char} (h : Opens text) (rest : List Char) :
    Opens (text ++ rest) := by
  cases text with
  | nil => exact h.elim
  | cons c text => exact h

theorem Opens.stops {text : List Char} (h : Opens text) (rest : List Char) :
    Stops (text ++ rest) := by
  cases text with
  | nil => exact h.elim
  | cons c text =>
      have hc : isOpener c = true := h
      simp only [isOpener, Bool.not_eq_true', Bool.or_eq_false_iff] at hc
      exact ⟨hc.1, by rintro rfl; simp at hc⟩

theorem Opens.head {text : List Char} (h : Opens text) (rest : List Char) :
    ∃ c, (text ++ rest).head? = some c ∧ isOpener c = true := by
  cases text with
  | nil => exact h.elim
  | cons c text => exact ⟨c, rfl, h⟩

/-! ### Blanks -/

/-- Skipping ends where neither a blank nor a comment comes. -/
theorem skipFrom_gap {gap cs : List Char} (hgap : Gap gap) (h : Stops cs) :
    skipFrom .plain (gap ++ cs) = some cs := by
  induction gap with
  | nil =>
      cases cs with
      | nil => rfl
      | cons c cs =>
          obtain ⟨hblank, hslash⟩ := h
          rw [List.nil_append, skipFrom]
          · simp [hblank]
          all_goals simp_all
  | cons c gap ih =>
      have hblank : isBlank c = true := hgap c List.mem_cons_self
      have hslash : c ≠ '/' := by
        rintro rfl
        cases hblank
      rw [List.cons_append, skipFrom, if_pos hblank]
      · exact ih fun d hd => hgap d (List.mem_cons_of_mem _ hd)
      all_goals simp_all

@[simp] theorem blanks_gap {gap cs : List Char} (hgap : Gap gap) (h : Stops cs) :
    blanks (gap ++ cs) = some ((), cs) := by
  rw [blanks, skipFrom_gap hgap h]
  rfl

/-! ### What a reader takes -/

/-- The reader takes a text as a value, whatever follows that may follow. -/
structure Reads.Takes {α : Type} (read : Reads α) (text : List Char) (a : α) : Prop where
  /-- The text starts as values do. -/
  opens : Opens text
  /-- The reader takes it, and nothing else. -/
  takes : ∀ {rest : List Char}, Ends rest → read (text ++ rest) = some (a, rest)

theorem Reads.Takes.map {α β : Type} {read : Reads α} {text : List Char} {a : α}
    (h : read.Takes text a) (f : α → β) : Takes (f <$> read) text (f a) where
  opens := h.opens
  takes := by
    intro rest hends
    simp [h.takes hends]

/-- A run of characters of a class ends where something may follow that is not of the class. -/
theorem span_of_ends {p : Char → Bool} (hp : ∀ {c}, isEnd c = true → p c = false)
    {cs rest : List Char} (hcs : ∀ c ∈ cs, p c = true) (h : Ends rest) :
    span p (cs ++ rest) = some (cs, rest) := by
  have hrest : rest.takeWhile p = [] ∧ rest.dropWhile p = rest := by
    cases rest with
    | nil => exact ⟨rfl, rfl⟩
    | cons c rest => simp [hp h]
  rw [span_apply, List.takeWhile_append_of_pos hcs, List.dropWhile_append_of_pos hcs, hrest.1,
    hrest.2, List.append_nil]

/-! ### Words and identifiers -/

/-- A word that stands there is taken. -/
theorem word_append (text : String) {rest : List Char} (h : Ends rest) :
    word text (text.toList ++ rest) = some (true, rest) := by
  have hnone : rest.head?.any Text.isIdentifierPart = false := by
    cases rest with
    | nil => rfl
    | cons c rest => exact isIdentifierPart_of_isEnd h
  rw [word, bind_apply, get_apply, Option.bind_some, ← String.length_toList]
  simp only [List.take_left, List.drop_left, hnone]
  rfl

/-- A word is not taken where another character comes first. -/
theorem word_of_head_ne {text : String} {cs : List Char} (h : text.toList.head? ≠ cs.head?)
    (hne : text.toList ≠ []) : word text cs = some (false, cs) := by
  have htake : cs.take text.length ≠ text.toList := by
    intro heq
    refine h ?_
    rw [← heq, List.head?_take, if_neg]
    rw [← String.length_toList, List.length_eq_zero_iff]
    exact hne
  simp [word, htake]

/-- A word is not taken where a value has ended. -/
theorem word_of_ends (text : String) (htext : text.toList.head?.any Text.isIdentifierPart = true)
    {rest : List Char} (h : Ends rest) : word text rest = some (false, rest) := by
  cases hc : text.toList with
  | nil => simp [hc] at htext
  | cons c cs =>
      have hpart : Text.isIdentifierPart c = true := by simpa [hc] using htext
      refine word_of_head_ne ?_ (by simp [hc])
      intro heq
      rw [hc] at heq
      rw [isIdentifierPart_of_isEnd (h.head heq.symm)] at hpart
      cases hpart

/-- May this character stand in a plain name? -/
def isPlain (c : Char) : Bool := c.isAlphanum || c = '_'

theorem isIdentifierPart_of_isPlain {c : Char} (h : isPlain c = true) :
    Text.isIdentifierPart c = true := by
  simp only [isPlain, Char.isAlphanum, Bool.or_eq_true, decide_eq_true_eq] at h
  rcases h with (h | h) | rfl
  · simp [Text.isIdentifierPart, Text.isIdentifierStart, h]
  · simp [Text.isIdentifierPart, h]
  · rfl

/-- Neither a plain character nor one behind a value is a quote or the mark of a raw identifier. -/
theorem head_not_mark {cs rest : List Char} (hcs : ∀ c ∈ cs, isPlain c = true) (h : Ends rest)
    {c : Char} (hc : (cs ++ rest).head? = some c) : ['"', '\'', '#'].contains c = false := by
  cases cs with
  | nil => exact eq_false_of_isEnd (by decide) (h.head hc)
  | cons d cs =>
      obtain rfl : d = c := Option.some.inj hc
      have hplain : isPlain d = true := hcs d List.mem_cons_self
      by_contra hmark
      rw [Bool.not_eq_false] at hmark
      obtain rfl | rfl | rfl : d = '"' ∨ d = '\'' ∨ d = '#' := by simpa using hmark
      all_goals cases hplain

/-- No literal is introduced where neither a quote nor the mark of a raw identifier comes behind a
letter, nor behind the two letters that introduce raw bytes. -/
theorem startsLiteral_eq_false {c : Char} {cs : List Char}
    (hfirst : ∀ d, cs.head? = some d → ['"', '\'', '#'].contains d = false)
    (hsecond : ∀ d more, cs = 'r' :: d :: more → ['"', '\'', '#'].contains d = false) :
    startsLiteral (c :: cs) = false := by
  rw [startsLiteral]
  all_goals
    intro rest heq
    obtain rfl := (List.cons.inj heq).2
    first
      | exact absurd (hfirst _ rfl) (by decide)
      | exact absurd (hsecond _ _ rfl) (by decide)

theorem startsLiteral_plain {c : Char} {cs rest : List Char} (hcs : ∀ c ∈ cs, isPlain c = true)
    (h : Ends rest) : startsLiteral (c :: (cs ++ rest)) = false := by
  refine startsLiteral_eq_false (fun d => head_not_mark hcs h) fun d more heq => ?_
  cases cs with
  | nil =>
      rw [List.nil_append] at heq
      subst heq
      cases h
  | cons e cs =>
      have hmore : cs ++ rest = d :: more := (List.cons.inj heq).2
      have hhead : (cs ++ rest).head? = some d := by rw [hmore, List.head?_cons]
      exact head_not_mark (fun c hc => hcs c (List.mem_cons_of_mem _ hc)) h hhead

/-- An identifier that is not marked as raw. -/
theorem identifier_of_not_raw {cs : List Char} (h : ∀ rest, cs ≠ 'r' :: '#' :: rest) :
    identifier cs = (do
      guard (!startsLiteral cs && cs.head?.any Text.isIdentifierStart)
      return .ofList ((← next) :: (← span Text.isIdentifierPart)) : Reads String) cs := by
  rw [identifier, bind_apply, get_apply, Option.bind_some]
  refine congrFun ?_ cs
  dsimp only
  split
  next rest => exact absurd rfl (h rest)
  next => rfl

/-- A plain name is taken as an identifier. -/
theorem takes_identifier {name : String} (h : isPlainName name = true) :
    identifier.Takes name.toList name := by
  rw [isPlainName] at h
  split at h
  next => cases h
  next c cs hname =>
    simp only [Bool.and_eq_true, List.all_eq_true] at h
    obtain ⟨hc, hcs⟩ := h
    have hstart : Text.isIdentifierStart c = true := by
      rw [Text.isIdentifierStart, hc, Bool.true_or]
    have hopens : isOpener c = true := by
      by_contra hnot
      rw [Bool.not_eq_true, isOpener, Bool.not_eq_false'] at hnot
      have hall : [' ', '\t', '\n', '\r', '\x0B', '\x0C', '\u0085', '\u200E', '\u200F', '\u2028',
          '\u2029', '/', '#', ')', ']', ','].any (fun c => c.isAlpha || decide (c = '_'))
            = false := by decide
      exact List.any_eq_false.mp hall c (by simpa [isBlank, or_assoc] using hnot) hc
    refine ⟨hname ▸ hopens, fun {rest} hends => ?_⟩
    have hspan := span_of_ends isIdentifierPart_of_isEnd
      (fun c hc => isIdentifierPart_of_isPlain (hcs c hc)) hends
    have hchars : String.ofList (c :: cs) = name := by rw [← hname, String.ofList_toList]
    have hraw : ∀ more, c :: (cs ++ rest) ≠ 'r' :: '#' :: more := by
      intro more heq
      have hhead : (cs ++ rest).head? = some '#' := by rw [(List.cons.inj heq).2, List.head?_cons]
      exact absurd (head_not_mark hcs hends hhead) (by decide)
    rw [hname, List.cons_append, identifier_of_not_raw hraw]
    simp [startsLiteral_plain hcs hends, hstart, hspan, hchars, -String.ofList_cons]

end Sequencer.Ron
