/-
`Spelling.lean` -- that the texts and numbers of JSON are read back.

A text is written character by character: as it stands, by an escape of its own, or by
number. Each character is read as one piece from what it was written as, and the pieces
spell the characters again (`text?_writeText`). The digits of a whole number end where
nothing follows that could go on with them, and spell the number that they were written
for (`scalar?_toString`).
-/
import CellScan.Json.Reader
import CellScan.Json.Writer

set_option autoImplicit false

namespace CellScan.Json

open CellScan.Text

/-! ## Texts -/

/-- Whether a character is written by number: a control without an escape of its own. -/
def byNumber (c : Char) : Bool :=
  c.toNat < 0x20 && !List.contains ['\x08', '\t', '\n', '\x0c', '\r'] c

/-- The piece that a character is written as. -/
def pieceOf (c : Char) : Piece := if byNumber c then .unit c.toNat else .char c

/-- The four digits of a control name it. -/
theorem unit?_padded : ∀ n < 0x20, ∃ a b c d,
    (Hex.padded 4 n).toList = [a, b, c, d] ∧ unit? a b c d = some n := by
  have all : ∀ n < 0x20, unit? (Hex.digit (n >>> 12 % 16)) (Hex.digit (n >>> 8 % 16))
      (Hex.digit (n >>> 4 % 16)) (Hex.digit (n % 16)) = some n := by decide +kernel
  intro n hn
  exact ⟨_, _, _, _, by simp [Hex.padded, List.range, List.range.loop], all n hn⟩

/-- A character that needs no escape is read as it stands. -/
theorem pieces_cons (done : List Piece) {c : Char} (rest : List Char) (hquote : c ≠ '"')
    (hback : c ≠ '\\') (hc : ¬c.toNat < 0x20) :
    pieces done (c :: rest) = pieces (.char c :: done) rest := by
  rw [pieces.eq_def]
  split
  · next heq => cases heq
  · next heq => exact absurd (List.cons.inj heq).1 hquote
  · next heq => exact absurd (List.cons.inj heq).1 hback
  · next heq => exact absurd (List.cons.inj heq).1 hback
  · next heq =>
      obtain ⟨rfl, rfl⟩ := List.cons.inj heq
      rw [if_neg hc]

/-- One character is read from what it is written as. -/
theorem pieces_writeChar (done : List Piece) (c : Char) (rest : List Char) :
    pieces done ((writeChar c).toList ++ rest) = pieces (pieceOf c :: done) rest := by
  rw [writeChar.eq_def]
  split
  -- Seven characters have an escape of their own, and are read by computation.
  iterate 7 next => rfl
  next hquote hback h8 ht hn hf hr =>
    split
    · next hctl =>
        obtain ⟨p, q, r, s, htext, hunit⟩ := unit?_padded c.toNat hctl
        have hnum : byNumber c = true := by
          simpa [byNumber, hctl] using ⟨h8, ht, hn, hf, hr⟩
        have hescape : ("\\u" ++ Hex.padded 4 c.toNat).toList ++ rest =
            '\\' :: 'u' :: p :: q :: r :: s :: rest := by
          simp [String.toList_append, htext]
        rw [hescape, pieces, hunit, pieceOf, if_pos hnum]
    · next hctl =>
        have hself : c.toString.toList ++ rest = c :: rest := by simp [Char.toString]
        rw [hself, pieces_cons done rest hquote hback hctl, pieceOf, if_neg]
        simp [byNumber, hctl]

/-- The characters of a text are read from what they are written as, up to the quote. -/
theorem pieces_writeChars (done : List Piece) (cs rest : List Char) :
    pieces done (cs.flatMap (fun c => (writeChar c).toList) ++ '"' :: rest) =
      some ((cs.map pieceOf).reverse ++ done, rest) := by
  induction cs generalizing done with
  | nil => rfl
  | cons c cs ih =>
      rw [List.flatMap_cons, List.append_assoc, pieces_writeChar, ih]
      simp

/-- A number below those of surrogates is a character by itself. -/
theorem spell_unit {n : Nat} (hn : n < 0xd800) (ps : List Piece) :
    spell (.unit n :: ps) = (spell ps).map (Char.ofNat n :: ·) := by
  have hhigh : isHigh n = false := by simp [isHigh]; omega
  have hlow : isLow n = false := by simp [isLow]; omega
  cases ps with
  | nil =>
      rw [spell.eq_def]
      simp only [hhigh, hlow]
      rfl
  | cons p ps =>
      rw [spell.eq_def]
      cases p with
      | char c =>
          simp only [hhigh, hlow]
          rfl
      | unit m =>
          simp only [hhigh, hlow]
          rfl

/-- The pieces that characters are written as spell those characters. -/
theorem spell_map_pieceOf (cs : List Char) : spell (cs.map pieceOf) = some cs := by
  induction cs with
  | nil => rfl
  | cons c cs ih =>
      rw [List.map_cons, pieceOf]
      split
      · next hnum =>
          have hctl : c.toNat < 0x20 := by
            simp only [byNumber, Bool.and_eq_true, decide_eq_true_eq] at hnum
            exact hnum.1
          rw [spell_unit (by omega), ih, Option.map_some, Char.ofNat_toNat]
      · rw [spell, ih, Option.map_some]

/-- The characters of a text's own text. -/
theorem toList_writeText (s : String) : (writeText s).toList =
    '"' :: (s.toList.flatMap (fun c => (writeChar c).toList) ++ ['"']) := by
  rw [writeText, String.toList_append, String.toList_append, String.toList_join,
    List.flatMap_map]
  rfl

/-- A text is read from its own text, whose opening quote has been read. -/
theorem text?_writeText (s : String) (rest : List Char) :
    ∃ less, text? (s.toList.flatMap (fun c => (writeChar c).toList) ++ '"' :: rest) =
      some (some s, ⟨rest, less⟩) := by
  have hpieces := pieces_writeChars [] s.toList rest
  have hspell : textOf ((s.toList.map pieceOf).reverse ++ []) = some s := by
    rw [textOf, List.append_nil, List.reverse_reverse, spell_map_pieceOf, Option.map_some,
      String.ofList_toList]
  refine ⟨length_of_pieces hpieces, ?_⟩
  rw [text?]
  split
  · next hnone => rw [hpieces] at hnone; cases hnone
  · next hsome =>
      rw [hpieces] at hsome
      cases hsome
      rw [hspell]

/-! ## Numbers -/

/-- Whether a number is whole and in the range that is read exactly. -/
def Number.isExact : Number → Bool
  | .whole i => Int64.minValue.toInt ≤ i && i < UInt64.size
  | .other _ => false

/-- Whether a number that ends here has ended: what follows cannot go on with it. -/
def Stops (rest : List Char) : Prop :=
  ∀ c ∈ rest.head?, c.isDigit = false ∧ c ≠ '.' ∧ c ≠ 'e' ∧ c ≠ 'E'

theorem stops_nil : Stops [] := by
  intro c hc
  cases hc

theorem stops_cons {c : Char} (rest : List Char) (hdigit : c.isDigit = false) (hpoint : c ≠ '.')
    (he : c ≠ 'e') (hE : c ≠ 'E') : Stops (c :: rest) := by
  intro d hd
  obtain rfl := Option.some.inj hd
  exact ⟨hdigit, hpoint, he, hE⟩

/-- Digits up to where a number stops are read as they stand. -/
theorem digits1?_append {ds rest : List Char} (hne : ds ≠ []) (hds : ∀ d ∈ ds, d.isDigit = true)
    (hrest : Stops rest) : digits1? (ds ++ rest) = some (ds, rest) := by
  have htake : rest.takeWhile Char.isDigit = [] := by
    cases rest with
    | nil => rfl
    | cons c rest => simp [(hrest c rfl).1]
  have hdrop : rest.dropWhile Char.isDigit = rest := by
    cases rest with
    | nil => rfl
    | cons c rest => simp [(hrest c rfl).1]
  rw [digits1?, List.takeWhile_append_of_pos hds, List.dropWhile_append_of_pos hds, htake, hdrop,
    List.append_nil]
  cases ds with
  | nil => exact absurd rfl hne
  | cons d ds => rfl

theorem isDigit_of_mem_toDigits (n : Nat) : ∀ d ∈ Nat.toDigits 10 n, d.isDigit = true :=
  fun _ hd => Nat.isDigit_of_mem_toDigits (by decide) (by decide) hd

theorem exists_start_toDigits (n : Nat) :
    ∃ d ds, Nat.toDigits 10 n = d :: ds ∧ d.isDigit = true := by
  have hdigits := isDigit_of_mem_toDigits n
  cases hds : Nat.toDigits 10 n with
  | nil => exact absurd hds Nat.toDigits_ne_nil
  | cons d ds => exact ⟨d, ds, rfl, hdigits d (hds ▸ List.mem_cons_self)⟩

/-- The digits of a number spell it. -/
theorem digitsValue_toDigits (n : Nat) : digitsValue (Nat.toDigits 10 n) = n := by
  have hfold : digitsValue (Nat.toDigits 10 n) = Nat.ofDigitChars 10 (Nat.toDigits 10 n) 0 := by
    rw [Nat.ofDigitChars_eq_foldl, digitsValue]
    simp only [digitValue, Nat.mul_comm, Char.reduceToNat]
  rw [hfold, Nat.ofDigitChars_ten_toDigits]

/-- Only the digits of zero begin with a zero. -/
theorem head?_toDigits {n : Nat} (hn : 0 < n) : (Nat.toDigits 10 n).head? ≠ some '0' := by
  induction n using Nat.strongRecOn with
  | ind n ih =>
      rw [Nat.toDigits_eq_if (by decide)]
      split
      · simp only [List.head?_cons, ne_eq, Option.some.injEq, Nat.digitChar_eq_zero]
        omega
      -- the first digit is that of the number without its last digit
      · rw [List.head?_append, Option.or_of_isSome (by simp)]
        exact ih (n / 10) (by omega) (by omega)

/-- The digits of a number are read as its whole part. -/
theorem wholePart?_toDigits (n : Nat) {rest : List Char} (hrest : Stops rest) :
    wholePart? (Nat.toDigits 10 n ++ rest) = some (Nat.toDigits 10 n, rest) := by
  rcases Nat.eq_zero_or_pos n with rfl | hn
  · rw [Nat.toDigits_zero]
    rfl
  · have hhead := head?_toDigits hn
    have hread := digits1?_append Nat.toDigits_ne_nil (isDigit_of_mem_toDigits n) hrest
    rw [wholePart?.eq_def]
    split
    · next heq =>
        obtain ⟨d, ds, hds, -⟩ := exists_start_toDigits n
        rw [hds, List.cons_append] at heq
        rw [hds, (List.cons.inj heq).1] at hhead
        exact absurd rfl hhead
    · exact hread

/-- Where a number stops, no point and no exponent follows. -/
theorem parts_of_stops {rest : List Char} (hrest : Stops rest) :
    fractionPart? rest = some (none, rest) ∧ exponentPart? rest = some (none, rest) := by
  cases rest with
  | nil => exact ⟨rfl, rfl⟩
  | cons c rest =>
      obtain ⟨-, hpoint, he, hE⟩ := hrest c rfl
      constructor
      · rw [fractionPart?.eq_def]
        split
        · next heq => exact absurd (List.cons.inj heq).1 hpoint
        · rfl
      · rw [exponentPart?.eq_def]
        simp [he, hE]

/-- Digits are read as a number without point and exponent, with or without a sign. -/
theorem decimal?_toDigits (n : Nat) {rest : List Char} (hrest : Stops rest) :
    decimal? (Nat.toDigits 10 n ++ rest) = some (⟨false, Nat.toDigits 10 n, none, none⟩, rest) ∧
      decimal? ('-' :: (Nat.toDigits 10 n ++ rest)) =
        some (⟨true, Nat.toDigits 10 n, none, none⟩, rest) := by
  have hwhole := wholePart?_toDigits n hrest
  obtain ⟨hfraction, hexponent⟩ := parts_of_stops hrest
  constructor
  · rw [decimal?.eq_def]
    split
    rename_i negative body hsign
    -- no sign is taken from digits
    split at hsign
    · next heq =>
        obtain ⟨d, ds, hds, hd⟩ := exists_start_toDigits n
        rw [hds, List.cons_append] at heq
        rw [(List.cons.inj heq).1] at hd
        cases hd
    · obtain ⟨rfl, rfl⟩ := Prod.mk.inj hsign
      rw [hwhole, Option.bind_eq_bind, Option.bind_some]
      simp [hfraction, hexponent]
  · rw [decimal?.eq_def]
    simp [hwhole, hfraction, hexponent]

/-- The decimal number of digits is the whole number that they spell. -/
theorem number_toDigits {i : Int} (hi : (Number.whole i).isExact = true) :
    Decimal.number ⟨decide (i < 0), Nat.toDigits 10 i.natAbs, none, none⟩ = .whole i := by
  simp only [Number.isExact, Bool.and_eq_true, decide_eq_true_eq] at hi
  obtain ⟨hleast, hmost⟩ := hi
  simp only [Decimal.number, digitsValue_toDigits]
  by_cases hneg : i < 0
  · have habs : -(i.natAbs : Int) = i := by omega
    rw [if_pos (by simpa using hneg), if_pos ⟨by omega, by omega⟩, habs]
  · have habs : (i.natAbs : Int) = i := by omega
    rw [if_neg (by simpa using hneg), if_pos (by omega), habs]

/-- The characters of a whole number. -/
theorem toList_toString (i : Int) : (toString i).toList =
    if i < 0 then '-' :: Nat.toDigits 10 i.natAbs else Nat.toDigits 10 i.natAbs := by
  rw [Int.toString_eq_repr, Int.repr_eq_if]
  by_cases hneg : i < 0
  · have habs : (-i).toNat = i.natAbs := by omega
    rw [if_pos hneg, if_neg (by omega), habs]
    simp
  · have habs : i.toNat = i.natAbs := by omega
    rw [if_neg hneg, if_pos (by omega), habs, Nat.toList_repr]

/-- A whole number begins with a digit or a minus sign. -/
theorem exists_start_toString (i : Int) :
    ∃ c cs, (toString i).toList = c :: cs ∧ (c.isDigit = true ∨ c = '-') := by
  rw [toList_toString]
  split
  · exact ⟨_, _, rfl, .inr rfl⟩
  · obtain ⟨d, ds, hds, hd⟩ := exists_start_toDigits i.natAbs
    exact ⟨d, ds, hds, .inl hd⟩

/-- No word begins with a digit or a minus sign. -/
theorem word?_eq_none {c : Char} (hc : c.isDigit = true ∨ c = '-') (cs : List Char) :
    word? (c :: cs) = none := by
  rw [word?.eq_def]
  split
  · next heq =>
      rw [(List.cons.inj heq).1] at hc
      exact absurd hc (by decide)
  · next heq =>
      rw [(List.cons.inj heq).1] at hc
      exact absurd hc (by decide)
  · next heq =>
      rw [(List.cons.inj heq).1] at hc
      exact absurd hc (by decide)
  · rfl

/-- A whole number in range is read from its own text. -/
theorem scalar?_toString {i : Int} (hi : (Number.whole i).isExact = true) {rest : List Char}
    (hrest : Stops rest) :
    scalar? ((toString i).toList ++ rest) = some (.number (.whole i), rest) := by
  obtain ⟨c, cs, htext, hc⟩ := exists_start_toString i
  have hword : word? ((toString i).toList ++ rest) = none := by
    rw [htext]
    exact word?_eq_none hc _
  have hdecimal : decimal? ((toString i).toList ++ rest) =
      some (⟨decide (i < 0), Nat.toDigits 10 i.natAbs, none, none⟩, rest) := by
    obtain ⟨hplain, hminus⟩ := decimal?_toDigits i.natAbs hrest
    rw [toList_toString]
    by_cases hneg : i < 0
    · rw [if_pos hneg, decide_eq_true hneg]
      exact hminus
    · rw [if_neg hneg, decide_eq_false hneg]
      exact hplain
  simp only [scalar?, hword, hdecimal, Option.map_some, number_toDigits hi]

end CellScan.Json
