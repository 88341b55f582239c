import Sequencer.Proofs.Number.Text
import Sequencer.Proofs.Ron.Pieces
import Sequencer.Ron.Number
import Sequencer.Ron.Quoted

/-!
# Sequencer.Proofs.Ron.Literals

Integers, numbers and text are taken as they are written.

* `takes_integer`: an integer, by any type that has it;
* `takes_number`: a number that equals itself, by its format: the name of an infinity, or digits
  with a point between them;
* `takes_text`: text between quotes. Each character has one written form, and is read from it
  (`upToQuote_escapeChar`).
-/

namespace Sequencer.Ron

open Reads

/-! ### Integers -/

/-- Hexadecimal digits stand for the numbers below sixteen. -/
theorem hexDigit?_digitChar {n : Nat} (h : n < 16) : hexDigit? n.digitChar = some n := by
  have hall : ∀ k < 16, hexDigit? (Nat.digitChar k) = some k := by decide
  exact hall n h

/-- The digits of a number in a base up to sixteen are worth it. -/
theorem valueInBase?_toDigits {base : Nat} (hlow : 1 < base) (hhigh : base ≤ 16) (n : Nat) :
    valueInBase? base (Nat.toDigits base n) = some n := by
  induction n using Nat.strongRecOn with
  | _ n ih =>
    have hlast : n % base < base := Nat.mod_lt n (by omega)
    have hdigit := hexDigit?_digitChar (Nat.lt_of_lt_of_le hlast hhigh)
    by_cases hsmall : n < base
    · rw [Nat.mod_eq_of_lt hsmall] at hdigit
      simp [Nat.toDigits_of_lt_base hsmall, valueInBase?, hdigit, hsmall]
    · have hrest := ih (n / base) (Nat.div_lt_self (by omega) hlow)
      rw [valueInBase?] at hrest
      rw [Nat.toDigits_of_base_le hlow (Nat.not_lt.mp hsmall), valueInBase?, List.foldlM_append,
        hrest]
      simp [hdigit, hlast, Nat.div_add_mod]

theorem isIntegerPart_of_isEnd {c : Char} (hc : isEnd c = true) : isIntegerPart c = false :=
  eq_false_of_isEnd (by decide) hc

theorem isIntegerPart_of_isDigit {c : Char} (h : c.isDigit = true) : isIntegerPart c = true := by
  simp [isIntegerPart, hexDigit?, h]

theorem toList_toString (n : Int) :
    (toString n).toList
      = BinaryNumber.signed (decide (n < 0)) (Nat.toDigits 10 n.natAbs) := by
  rw [Int.toString_eq_repr, Int.repr_eq_if]
  split
  next h =>
    rw [Nat.toList_repr, BinaryNumber.signed, decide_eq_false (by omega), if_neg (by simp)]
    congr 1
    omega
  next h =>
    rw [String.toList_append, Nat.toList_repr, BinaryNumber.signed, decide_eq_true (by omega),
      if_pos rfl, show (-n).toNat = n.natAbs by omega]
    rfl

theorem sign_apply (cs : List Char) : sign cs = some (takeSign cs) := rfl

/-- Behind a number without a suffix, none is found. -/
theorem suffixAhead_of_ends {cs rest : List Char} (hcs : ∀ c ∈ cs, isIntegerPart c = true)
    (h : Ends rest) : suffixAhead (cs ++ rest) = some (none, cs ++ rest) := by
  have hnone : IntegerType.all.find? (fun type => ((word type.suffix).run' rest).getD false)
      = none := by
    refine List.find?_eq_none.mpr fun type htype => ?_
    have hhead : ∀ t ∈ IntegerType.all, t.suffix.toList.head?.any Text.isIdentifierPart = true := by
      decide
    rw [StateT.run', word_of_ends _ (hhead type htype) h]
    simp
  simp only [suffixAhead, ahead, bind_apply, get_apply, Option.bind_some,
    span_of_ends isIntegerPart_of_isEnd hcs h, hnone, pure_apply, set_apply]

/-- Behind decimal digits there is nothing that would mark another base. -/
theorem accept_mark_of_ends {cs rest : List Char} (hcs : Digits cs) (h : Ends rest) (mark : Char)
    (hdigit : mark.isDigit = false) (hend : isEnd mark = false) :
    accept ['0', mark] (cs ++ rest) = some (false, cs ++ rest) := by
  refine accept_of_ne ?_
  intro heq
  cases cs with
  | nil => exact hcs.ne_nil rfl
  | cons c cs =>
      have hmark : (cs ++ rest).head? = some mark := by
        cases hrest : cs ++ rest with
        | nil => simp [hrest] at heq
        | cons d ds =>
            have htail : [d] = [mark] := by simpa [hrest] using (List.cons.inj heq).2
            rw [List.head?_cons, (List.cons.inj htail).1]
      cases cs with
      | nil => exact absurd (h.head hmark) (by simp [hend])
      | cons d cs =>
          obtain rfl : d = mark := Option.some.inj hmark
          exact absurd (hcs.isDigit d (by simp)) (by simp [hdigit])

/-- The digits of a number are read as the number. -/
theorem natural_toDigits (n : Nat) {rest : List Char} (h : Ends rest) :
    natural (Nat.toDigits 10 n ++ rest) = some (n, rest) := by
  have hdigits := digits_toDigits n
  have hcs : ∀ c ∈ Nat.toDigits 10 n, isIntegerPart c = true :=
    fun c hc => isIntegerPart_of_isDigit (hdigits.isDigit c hc)
  have hplain : ∀ c ∈ Nat.toDigits 10 n, c ≠ '_' := by
    rintro c hc rfl
    cases hdigits.isDigit _ hc
  have hhead : (Nat.toDigits 10 n).head?.any (· ≠ '_') = true := by
    cases hds : Nat.toDigits 10 n with
    | nil => exact absurd hds hdigits.ne_nil
    | cons c cs => simpa using hplain c (by simp [hds])
  have hfilter : (Nat.toDigits 10 n).filter (· ≠ '_') = Nat.toDigits 10 n :=
    List.filter_eq_self.mpr fun c hc => by simpa using hplain c hc
  have hvalue := valueInBase?_toDigits (by decide : 1 < 10) (by decide) n
  have hbinary := accept_mark_of_ends hdigits h 'b' (by decide) (by decide)
  have hoctal := accept_mark_of_ends hdigits h 'o' (by decide) (by decide)
  have hhex := accept_mark_of_ends hdigits h 'x' (by decide) (by decide)
  simp only [natural, digits, bind_apply, hbinary, hoctal, hhex, Bool.false_eq_true, ↓reduceIte,
    span_of_ends isIntegerPart_of_isEnd hcs h, guard_apply, hhead, hfilter, hvalue, lift_apply,
    Option.bind_some, Option.map_some]

theorem isOpener_of_isDigit {c : Char} (h : c.isDigit = true) : isOpener c = true := by
  have hall : [' ', '\t', '\n', '\r', '\x0B', '\x0C', '\u0085', '\u200E', '\u200F', '\u2028',
      '\u2029', '/', '#', ')', ']', ','].any Char.isDigit = false := by decide
  by_contra hnot
  rw [Bool.not_eq_true, isOpener, Bool.not_eq_false'] at hnot
  exact List.any_eq_false.mp hall c (by simpa [isBlank, or_assoc] using hnot) h

/-- Digits with a sign in front or not start as values do. -/
theorem opens_signed (negative : Bool) {cs : List Char} (h : Digits cs) (more : List Char) :
    Opens (BinaryNumber.signed negative (cs ++ more)) := by
  cases negative with
  | true => rfl
  | false =>
      cases cs with
      | nil => exact absurd rfl h.ne_nil
      | cons c cs => exact isOpener_of_isDigit (h.isDigit c List.mem_cons_self)

theorem signed_append (negative : Bool) (cs rest : List Char) :
    BinaryNumber.signed negative cs ++ rest = BinaryNumber.signed negative (cs ++ rest) := by
  cases negative <;> rfl

/-- The sign in front of digits is taken. -/
theorem sign_signed (negative : Bool) {cs : List Char} (h : Digits cs) (more : List Char) :
    sign (BinaryNumber.signed negative (cs ++ more)) = some (negative, cs ++ more) := by
  cases cs with
  | nil => exact absurd rfl h.ne_nil
  | cons c cs =>
      have hdigit := h.isDigit c List.mem_cons_self
      rw [sign_apply, List.cons_append, takeSign_signed negative]
      · rintro rfl; cases hdigit
      · rintro rfl; cases hdigit

/-- **Integers.** An integer of a type is taken as it is written. -/
theorem takes_integer {type : IntegerType} {n : Int} (hlow : type.low ≤ n) (hhigh : n ≤ type.high) :
    (integer type).Takes (toString n).toList n := by
  have hdigits := digits_toDigits n.natAbs
  have hcs : ∀ c ∈ Nat.toDigits 10 n.natAbs, isIntegerPart c = true :=
    fun c hc => isIntegerPart_of_isDigit (hdigits.isDigit c hc)
  have hn : (if n < 0 then -(n.natAbs : Int) else n.natAbs) = n := by
    split <;> omega
  rw [toList_toString]
  refine ⟨?_, fun {rest} h => ?_⟩
  · simpa using opens_signed (decide (n < 0)) hdigits []
  · rw [signed_append, integer, bind_apply, sign_signed _ hdigits]
    simp only [Option.bind_some]
    rw [bind_apply, suffixAhead_of_ends hcs h]
    simp only [Option.bind_some]
    rw [integerIn, bind_apply, bind_apply, natural_toDigits _ h]
    simp only [Option.bind_some, bind_apply, guard_apply, decide_eq_true_eq, hn, hlow, hhigh,
      and_self, ↓reduceIte, pure_apply]

/-! ### Fractions -/

theorem isFractionPart_of_isEnd {c : Char} (hc : isEnd c = true) : isFractionPart c = false :=
  eq_false_of_isEnd (by decide) hc

theorem isFractionPart_of_isDigit {c : Char} (h : c.isDigit = true) : isFractionPart c = true := by
  simp [isFractionPart, h]

/-- Where a value has ended there is no suffix of a fraction. -/
theorem fractionSuffix_of_ends {rest : List Char} (h : Ends rest) :
    fractionSuffix rest = some (none, rest) := by
  simp [fractionSuffix, word_of_ends "f32" (by decide) h, word_of_ends "f64" (by decide) h]

/-- Without underscores, a fraction stays as it is. -/
theorem withoutUnderscores?_of_notMem {cs : List Char} (h : '_' ∉ cs) (allowed : Bool) :
    withoutUnderscores? allowed cs = some cs := by
  induction cs generalizing allowed with
  | nil => rfl
  | cons c cs ih =>
      rw [List.mem_cons, not_or] at h
      rw [withoutUnderscores?, if_neg (Ne.symm h.1), ih h.2]
      rfl

/-- Words are not found where digits come first. -/
theorem accept_of_digits {c : Char} (text : List Char) (hc : c.isDigit = false) {cs : List Char}
    (h : Digits cs) (more : List Char) :
    accept (c :: text) (cs ++ more) = some (false, cs ++ more) := by
  refine accept_of_ne ?_
  cases cs with
  | nil => exact absurd rfl h.ne_nil
  | cons d cs =>
      intro heq
      obtain rfl : d = c := (List.cons.inj heq).1
      simp [h.isDigit d List.mem_cons_self] at hc

/-- Digits are not the name of a fraction. -/
theorem namedFraction_of_digits (negative : Bool) {cs : List Char} (h : Digits cs)
    (more : List Char) : namedFraction (BinaryNumber.signed negative (cs ++ more)) = none := by
  have hname : fractionName negative (cs ++ more) = none := by
    simp [fractionName, accept_of_digits (c := 'i') _ (by decide) h,
      accept_of_digits (c := 'N') _ (by decide) h]
  simp [namedFraction, sign_signed negative h, hname]

/-- Digits with a point between them are taken as a decimal. -/
theorem fraction_point (negative : Bool) {whole places rest : List Char} (hwhole : Digits whole)
    (hplaces : Digits places) (h : Ends rest) :
    fraction (BinaryNumber.signed negative (whole ++ '.' :: places) ++ rest)
      = some ((.decimal negative ⟨digitsValue (whole ++ places), -(places.length : Int)⟩, none),
          rest) := by
  have hparts : ∀ c ∈ BinaryNumber.signed negative (whole ++ '.' :: places),
      isFractionPart c = true ∧ c ≠ '_' := by
    intro c hc
    have hpart : c = '-' ∨ c ∈ whole ∨ c = '.' ∨ c ∈ places := by
      cases negative with
      | true => simpa [BinaryNumber.signed] using hc
      | false => exact .inr (by simpa [BinaryNumber.signed] using hc)
    have hdigit : c.isDigit = true → isFractionPart c = true ∧ c ≠ '_' := by
      refine fun hdigit => ⟨isFractionPart_of_isDigit hdigit, ?_⟩
      rintro rfl
      cases hdigit
    obtain rfl | hc | rfl | hc := hpart
    · exact ⟨by decide, by decide⟩
    · exact hdigit (hwhole.isDigit c hc)
    · exact ⟨by decide, by decide⟩
    · exact hdigit (hplaces.isDigit c hc)
  have hplain := withoutUnderscores?_of_notMem (fun hmem => (hparts _ hmem).2 rfl) false
  have hsign : takeSign (BinaryNumber.signed negative (whole ++ '.' :: places))
      = (negative, whole ++ '.' :: places) :=
    Option.some.inj ((sign_apply _).symm.trans (sign_signed negative hwhole _))
  rw [fraction, orElse_apply, signed_append, List.append_assoc, namedFraction_of_digits _ hwhole,
    ← List.append_assoc, ← signed_append, decimalFraction, bind_apply,
    span_of_ends isFractionPart_of_isEnd (fun c hc => (hparts c hc).1) h]
  simp only [Option.bind_some, bind_apply, fractionSuffix_of_ends h, hplain, lift_apply,
    Option.map_some, hsign, Decimal.ofText?_point hwhole hplaces.isDigit]
  rfl

/-- An infinity is taken by its name. -/
theorem fraction_infinite (negative : Bool) {rest : List Char} (h : Ends rest) :
    fraction (BinaryNumber.signed negative ['i', 'n', 'f'] ++ rest)
      = some ((.infinite negative, none), rest) := by
  have hsign : sign (BinaryNumber.signed negative ['i', 'n', 'f'] ++ rest)
      = some (negative, ['i', 'n', 'f'] ++ rest) := by
    rw [signed_append]
    exact congrArg some (takeSign_signed negative (by decide) (by decide) _)
  have hnone : rest.head?.any Text.isIdentifierPart = false := by
    cases rest with
    | nil => rfl
    | cons c rest => exact isIdentifierPart_of_isEnd h
  have hname : fractionName negative (['i', 'n', 'f'] ++ rest)
      = some (.infinite negative, rest) := by
    rw [fractionName, bind_apply, accept_append]
    rfl
  rw [fraction, orElse_apply, namedFraction, bind_apply, hsign, Option.bind_some, bind_apply, hname]
  simp [fractionSuffix_of_ends h, hnone]

/-- **Numbers.** A number that equals itself is taken as it is written. -/
theorem takes_number {f : BinaryFormat} (hf : f.fractionBits ≤ 2 ^ f.exponentBits)
    {x : BinaryNumber f} (hx : (x == x) = true) : (number f).Takes x.literalChars x := by
  obtain ⟨negative, htext, hvalue⟩ | ⟨negative, whole, places, htext, hwhole, hplaces, hvalue⟩ :=
    BinaryNumber.literalChars_cases hf hx
  · rw [htext]
    refine ⟨by cases negative <;> rfl, fun {rest} h => ?_⟩
    rw [number, bind_apply, fraction_infinite negative h, hvalue]
    rfl
  · rw [htext]
    refine ⟨opens_signed negative hwhole _, fun {rest} h => ?_⟩
    rw [number, bind_apply, fraction_point negative hwhole hplaces h, hvalue]
    rfl

/-! ### Text -/

/-- What holds of all digits of a base holds of the digits of a number. -/
theorem forall_mem_toDigits {P : Char → Prop} {base : Nat} (hbase : 1 < base)
    (h : ∀ k < base, P k.digitChar) (n : Nat) : ∀ c ∈ Nat.toDigits base n, P c := by
  induction n using Nat.strongRecOn with
  | _ n ih =>
    by_cases hsmall : n < base
    · simpa [Nat.toDigits_of_lt_base hsmall] using h n hsmall
    · intro c hc
      rw [Nat.toDigits_of_base_le hbase (Nat.not_lt.mp hsmall), List.mem_append,
        List.mem_singleton] at hc
      rcases hc with hc | rfl
      · exact ih (n / base) (Nat.div_lt_self (by omega) hbase) c hc
      · exact h _ (Nat.mod_lt n (by omega))

theorem toNat_valid (c : Char) :
    c.toNat < 0xD800 ∨ (0xDFFF < c.toNat ∧ c.toNat < 0x110000) :=
  c.valid

/-- Every character has a code point. -/
theorem charOfCode?_toNat (c : Char) : charOfCode? c.toNat = some c := by
  rw [charOfCode?, if_pos (toNat_valid c), Char.ofNat_toNat]

/-- A code point between braces is read as its character. -/
theorem codePoint_hexDigits (c : Char) (rest : List Char) :
    codePoint (Text.hexDigits c.toNat ++ '\x7d' :: rest) = some (c, rest) := by
  have hbrace : ∀ d ∈ Nat.toDigits 16 c.toNat, decide (d ≠ '\x7d') = true :=
    forall_mem_toDigits (by decide) (by decide) c.toNat
  have hlength : (Nat.toDigits 16 c.toNat).length ≤ 6 := by
    rw [Nat.length_toDigits_le_iff (by decide) (by decide)]
    have hvalid := toNat_valid c
    omega
  have hvalue := valueInBase?_toDigits (by decide : 1 < 16) (Nat.le_refl _) c.toNat
  rw [codePoint, bind_apply, span_apply, Text.hexDigits, List.takeWhile_append_of_pos hbrace,
    List.dropWhile_append_of_pos hbrace]
  simp [hlength, hvalue, charOfCode?_toNat]

theorem upToQuote_plain {c : Char} (hquote : c ≠ '"') (hslash : c ≠ '\\') (special : Reads Char)
    (bound : Nat) (rest : List Char) :
    upToQuote special (bound + 1) (c :: rest)
      = (upToQuote special bound rest).map fun p => (c :: p.1, p.2) := by
  rw [upToQuote, bind_apply, next_cons, Option.bind_some, ← map_apply]
  refine congrFun ?_ rest
  dsimp only
  split
  next => exact absurd rfl hquote
  next => exact absurd rfl hslash
  next => rfl

theorem upToQuote_escaped {c : Char} {escaped rest : List Char}
    (h : textEscape (escaped ++ rest) = some (c, rest)) (bound : Nat) :
    upToQuote textEscape (bound + 1) ('\\' :: (escaped ++ rest))
      = (upToQuote textEscape bound rest).map fun p => (c :: p.1, p.2) := by
  rw [upToQuote, bind_apply, next_cons, Option.bind_some]
  simp [h]

/-- A character is read from its written form. -/
theorem upToQuote_escapeChar (c : Char) (bound : Nat) (rest : List Char) :
    upToQuote textEscape (bound + 1) (Text.escapeChar true c ++ rest)
      = (upToQuote textEscape bound rest).map fun p => (c :: p.1, p.2) := by
  simp only [Text.escapeChar, ↓reduceIte]
  split_ifs with hnull htab hreturn hnewline hslash hquote hsingle hhidden
  · subst hnull; exact upToQuote_escaped (show textEscape (['0'] ++ rest) = _ from rfl) bound
  · subst htab; exact upToQuote_escaped (show textEscape (['t'] ++ rest) = _ from rfl) bound
  · subst hreturn; exact upToQuote_escaped (show textEscape (['r'] ++ rest) = _ from rfl) bound
  · subst hnewline; exact upToQuote_escaped (show textEscape (['n'] ++ rest) = _ from rfl) bound
  · subst hslash; exact upToQuote_escaped (show textEscape (['\\'] ++ rest) = _ from rfl) bound
  · subst hquote; exact upToQuote_escaped (show textEscape (['"'] ++ rest) = _ from rfl) bound
  · subst hsingle; exact upToQuote_escaped (show textEscape (['\''] ++ rest) = _ from rfl) bound
  · have hread : textEscape ('u' :: '\x7b' :: (Text.hexDigits c.toNat ++ ['\x7d']) ++ rest)
        = some (c, rest) := by
      simp [textEscape, escape, codePoint_hexDigits]
    exact upToQuote_escaped hread bound
  · exact upToQuote_plain hquote hslash textEscape bound rest

/-- Written characters are read up to the closing quote. -/
theorem upToQuote_quoted (chars : List Char) (rest : List Char) {bound : Nat}
    (h : chars.length < bound) :
    upToQuote textEscape bound (chars.flatMap (Text.escapeChar true) ++ '"' :: rest)
      = some (chars, rest) := by
  induction chars generalizing bound with
  | nil =>
      obtain ⟨bound, rfl⟩ := Nat.exists_eq_add_of_lt h
      rfl
  | cons c chars ih =>
      obtain ⟨bound, rfl⟩ : ∃ k, bound = k + 1 := ⟨bound - 1, by simp at h; omega⟩
      rw [List.flatMap_cons, List.append_assoc, upToQuote_escapeChar, ih (by simpa using h)]
      rfl

/-- A written form is not empty. -/
theorem length_le_flatMap_escapeChar (chars : List Char) :
    chars.length ≤ (chars.flatMap (Text.escapeChar true)).length := by
  induction chars with
  | nil => exact Nat.le_refl _
  | cons c chars ih =>
      have hpos : 1 ≤ (Text.escapeChar true c).length := by
        simp only [Text.escapeChar, Text.codePointEscape, ↓reduceIte]
        split_ifs <;> simp
      rw [List.flatMap_cons, List.length_append, List.length_cons]
      omega

/-- **Text.** Text between quotes is taken, whatever characters it has. -/
theorem takes_text (chars : List Char) : text.Takes (Text.quotedChars chars) chars := by
  refine ⟨rfl, fun {rest} _ => ?_⟩
  have hraw : accept ['r'] (Text.quotedChars chars ++ rest)
      = some (false, Text.quotedChars chars ++ rest) :=
    accept_of_ne (by simp [Text.quotedChars])
  have hlength := length_le_flatMap_escapeChar chars
  rw [text, bind_apply, hraw]
  simp only [Option.bind_some, Bool.false_eq_true, ↓reduceIte]
  rw [Text.quotedChars, List.cons_append, List.append_assoc, quotedWith, bind_apply, expect_cons]
  simp only [Option.bind_some, bind_apply, get_apply]
  refine upToQuote_quoted chars rest ?_
  rw [List.length_append]
  omega

end Sequencer.Ron
