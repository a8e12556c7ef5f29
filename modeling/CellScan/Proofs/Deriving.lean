/-
`Deriving.lean` -- that a label is read exactly if the grammar derives it.

What is read from the front of a byte string is the text of a tree of the grammar
(`read_operand`), and the text of a tree is read as that tree, whatever follows that
cannot go on with it (`operand_reads`). Two trees with one text are one
(`operand_unique`): an operand shows by its first byte of which kind it is, and by where it
ends which bytes are its own. So every byte string has one derivation or none, and reading
gives its tree or a fault (`parse_derived`).
-/
import CellScan.Environment
import CellScan.Label.Grammar
import Mathlib.Data.List.TakeWhile

set_option autoImplicit false

namespace CellScan.Label

/-! ## Bytes -/

/-- The bytes that need no quotes are those that words are made of. -/
theorem isTokenByte_iff (b : UInt8) : isTokenByte b = true ↔ b ∈ wordBytes := by
  have hread : ∀ n < 256, isTokenByte (UInt8.ofNat n) = true → UInt8.ofNat n ∈ wordBytes := by
    decide +kernel
  have hwritten : ∀ b ∈ wordBytes, isTokenByte b = true := by decide +kernel
  refine ⟨fun h => ?_, hwritten b⟩
  simpa using hread b.toNat b.toNat_lt (by simpa using h)

/-- A joint is read from the byte that it is written as, and from no other. -/
theorem Joint.ofByte?_eq_some_iff {b : UInt8} {j : Joint} : ofByte? b = some j ↔ b = j.byte := by
  rw [ofByte?]
  cases j with
  | and =>
      by_cases h : b = 0x26
      · simp [h, byte]
      · by_cases h' : b = 0x7c <;> simp [h, h', byte]
  | or =>
      by_cases h : b = 0x26
      · simp [h, byte]
      · by_cases h' : b = 0x7c <;> simp [h, h', byte]

@[simp] theorem Joint.ofByte?_byte (j : Joint) : ofByte? j.byte = some j :=
  ofByte?_eq_some_iff.mpr rfl

/-- Whether a word that ends here has ended: what follows is no byte of words. -/
def Ends (r : Bytes) : Prop := ∀ b ∈ r.head?, isTokenByte b = false

/-- Whether an expression that ends here has ended: nothing follows, or its closing
parenthesis. -/
def Closes (r : Bytes) : Prop := ∀ b ∈ r.head?, b = closeByte

theorem closes_nil : Closes [] := by
  intro b hb
  cases hb

theorem closes_closeByte (r : Bytes) : Closes (closeByte :: r) := by
  intro b hb
  exact (Option.some.inj hb).symm

theorem Closes.ends {r : Bytes} (h : Closes r) : Ends r := by
  intro b hb
  rw [h b hb]
  rfl

/-- A joint ends the word before it. -/
theorem ends_byte (j : Joint) (r : Bytes) : Ends (j.byte :: r) := by
  intro b hb
  rw [← Option.some.inj hb]
  cases j <;> rfl

/-- A joint does not close an expression. -/
theorem not_closes_byte (j : Joint) (r : Bytes) : ¬Closes (j.byte :: r) := by
  intro h
  have hbyte := h j.byte rfl
  cases j <;> exact absurd hbyte (by decide)

theorem ends_tailText {j : Joint} (os : List Operand) {r : Bytes} (h : Closes r) :
    Ends (tailText j os ++ r) := by
  cases os with
  | nil => exact h.ends
  | cons o os => exact ends_byte j _

/-! ## Words and quoted tokens -/

/-- A word is taken up to where it ends, and no further. -/
theorem takeWhile_word {w r : Bytes} (hw : ∀ b ∈ w, b ∈ wordBytes) (hr : Ends r) :
    (w ++ r).takeWhile isTokenByte = w ∧ (w ++ r).dropWhile isTokenByte = r := by
  have hplain : ∀ b ∈ w, isTokenByte b = true := fun b hb => (isTokenByte_iff b).mpr (hw b hb)
  rw [List.takeWhile_append_of_pos hplain, List.dropWhile_append_of_pos hplain]
  cases r with
  | nil => simp
  | cons b r =>
      have hb := hr b rfl
      simp [hb]

theorem escaped_cons (b : UInt8) (t : Bytes) : escaped (b :: t) = escapedByte b ++ escaped t :=
  List.flatMap_cons

/-- A quoted token is read from its bytes with their escapes, up to its closing quote. -/
theorem quotedRest_eq_ok_iff {s t r : Bytes} :
    quotedRest s = .ok (t, r) ↔ s = escaped t ++ quoteByte :: r := by
  constructor
  · intro h
    fun_induction quotedRest s generalizing t r with
    | case1 => cases h
    | case2 rest =>
        cases h
        rfl
    | case3 rest ih | case4 rest ih =>
        -- a backslash and the quote or backslash that it stands before
        cases hr : quotedRest rest with
        | error stop => rw [hr] at h; cases h
        | ok p =>
            rw [hr] at h
            cases h
            rw [ih hr]
            rfl
    | case5 => cases h
    | case6 b rest hquote _ _ hslash ih =>
        cases hr : quotedRest rest with
        | error stop => rw [hr] at h; cases h
        | ok p =>
            rw [hr] at h
            cases h
            have hplain : escapedByte b = [b] := if_neg fun hb => hb.elim hquote hslash
            rw [ih hr, escaped_cons, hplain]
            rfl
  · rintro rfl
    induction t with
    | nil => rfl
    | cons b t ih =>
        rw [escaped_cons, escapedByte]
        split
        · next hb =>
            rcases hb with rfl | rfl
            · simp only [List.cons_append, List.nil_append, quotedRest, ih]
              rfl
            · simp only [List.cons_append, List.nil_append, quotedRest, ih]
              rfl
        · next hb =>
            obtain ⟨hquote, hslash⟩ := not_or.mp hb
            simp only [List.cons_append, List.nil_append]
            rw [quotedRest.eq_6 _ _ hquote (fun _ h _ => hslash h) (fun _ h _ => hslash h) hslash,
              ih]
            rfl

/-! ## What a call reads -/

/-- An operand is read from the front of `s`, and `r` is left. -/
def OperandRead (room : Nat) (s : Bytes) (f : Formula) (r : Bytes) : Prop :=
  ∃ fewer, operand room s = .ok (f, ⟨r, fewer⟩)

/-- An expression is read from the front of `s`, and `r` is left. -/
def ExpressionRead (room : Nat) (s : Bytes) (f : Formula) (r : Bytes) : Prop :=
  ∃ fewer, expression room s = .ok (f, ⟨r, fewer⟩)

/-- The operands behind a first one are read from the front of `s`, and `r` is left. -/
def OperandsRead (room : Nat) (joint : Option Joint) (s : Bytes) (joint' : Option Joint)
    (fs : List Formula) (r : Bytes) : Prop :=
  ∃ fewer, operands room joint s = .ok (joint', fs, ⟨r, fewer⟩)

/-- An operand is a group, a token in quotes or a word, by the first byte. -/
theorem operandRead_iff {room : Nat} {s r : Bytes} {f : Formula} :
    OperandRead room s f r ↔
      (∃ inner body, room = inner + 1 ∧ s = openByte :: body
          ∧ ExpressionRead inner body f (closeByte :: r))
        ∨ (∃ body t, s = quoteByte :: body ∧ quotedRest body = .ok (t, r) ∧ t ≠ []
          ∧ f = .token t)
        ∨ ∃ c body, s = c :: body ∧ isTokenByte c = true
          ∧ f = .token (c :: body.takeWhile isTokenByte) ∧ r = body.dropWhile isTokenByte := by
  constructor
  · rintro ⟨fewer, h⟩
    cases s with
    | nil =>
        rw [operand] at h
        cases h
    | cons c body =>
        rw [operand.eq_def] at h
        dsimp only at h
        split at h
        · next hopen =>
            left
            split at h
            -- no room is left for one more open parenthesis
            · cases h
            · next inner =>
                split at h
                · cases h
                · cases h
                · next f' d left fewer' hread =>
                    split at h
                    · next hclose =>
                        cases h
                        rw [hclose] at hread
                        exact ⟨inner, body, rfl, by rw [hopen], _, hread⟩
                    · cases h
        · split at h
          · next hquote =>
              right
              left
              split at h
              · cases h
              · next t left hread =>
                  split at h
                  · cases h
                  · next hfilled =>
                      cases h
                      refine ⟨body, t, by rw [hquote], hread, ?_, rfl⟩
                      rintro rfl
                      exact hfilled rfl
          · right
            right
            split at h
            · next hplain =>
                cases h
                exact ⟨c, body, rfl, hplain, rfl, rfl⟩
            · cases h
  · rintro (⟨inner, body, rfl, rfl, fewer, h⟩ | ⟨body, t, rfl, h, hfilled, rfl⟩
      | ⟨c, body, rfl, hplain, rfl, rfl⟩)
    · refine ⟨by simp only [List.length_cons] at fewer ⊢; omega, ?_⟩
      rw [operand, if_pos rfl]
      simp only [h, if_true]
    · refine ⟨Nat.lt_succ_of_lt (length_of_quotedRest h), ?_⟩
      rw [operand.eq_def]
      dsimp only
      rw [if_neg (by decide), if_pos rfl]
      split
      · next stop hread =>
          rw [h] at hread
          cases hread
      · next t' left hread =>
          rw [h] at hread
          cases hread
          rw [if_neg (by simpa using hfilled)]
    · have hopen : c ≠ openByte := by
        rintro rfl
        exact absurd hplain (by decide)
      have hquote : c ≠ quoteByte := by
        rintro rfl
        exact absurd hplain (by decide)
      refine ⟨Nat.lt_succ_of_le (length_dropWhile_le isTokenByte body), ?_⟩
      rw [operand.eq_def]
      dsimp only
      rw [if_neg hopen, if_neg hquote, if_pos hplain]

/-- An expression is a first operand and those behind it. -/
theorem expressionRead_iff {room : Nat} {s r : Bytes} {f : Formula} :
    ExpressionRead room s f r ↔
      ∃ first next joint more, OperandRead room s first next
        ∧ OperandsRead room none next joint more r ∧ f = joined first joint more := by
  constructor
  · rintro ⟨fewer, h⟩
    rw [expression] at h
    split at h
    · cases h
    · next first next fewer' hfirst =>
        split at h
        · cases h
        · next joint more left fewer'' hmore =>
            cases h
            exact ⟨first, next, joint, more, ⟨fewer', hfirst⟩, ⟨fewer'', hmore⟩, rfl⟩
  · rintro ⟨first, next, joint, more, ⟨fewer, hfirst⟩, ⟨fewer', hmore⟩, rfl⟩
    refine ⟨Nat.lt_of_le_of_lt fewer' fewer, ?_⟩
    rw [expression]
    simp only [hfirst, hmore]

/-- The operands behind a first one go on with a joint, always the same, or end. -/
theorem operandsRead_iff {room : Nat} {joint joint' : Option Joint} {s r : Bytes}
    {fs : List Formula} :
    OperandsRead room joint s joint' fs r ↔
      (Closes s ∧ joint' = joint ∧ fs = [] ∧ r = s)
        ∨ ∃ j body f next more, s = Joint.byte j :: body ∧ (joint = none ∨ joint = some j)
          ∧ OperandRead room body f next ∧ OperandsRead room (some j) next joint' more r
          ∧ fs = f :: more := by
  constructor
  · rintro ⟨fewer, h⟩
    cases s with
    | nil =>
        rw [operands] at h
        cases h
        exact Or.inl ⟨closes_nil, rfl, rfl, rfl⟩
    | cons c body =>
        rw [operands] at h
        split at h
        · next j hj =>
            right
            split at h
            · next hsame =>
                split at h
                · cases h
                · next f next fewer' hread =>
                    split at h
                    · cases h
                    · next joint'' more left fewer'' hmore =>
                        cases h
                        rw [Joint.ofByte?_eq_some_iff.mp hj]
                        exact ⟨j, body, f, next, more, rfl, hsame, ⟨fewer', hread⟩,
                          ⟨fewer'', hmore⟩, rfl⟩
            · cases h
        · left
          split at h
          · next hclose =>
              cases h
              exact ⟨hclose ▸ closes_closeByte body, rfl, rfl, rfl⟩
          · cases h
  · rintro (⟨hcloses, rfl, rfl, rfl⟩
      | ⟨j, body, f, next, more, rfl, hsame, ⟨fewer, h⟩, ⟨fewer', h'⟩, rfl⟩)
    · refine ⟨Nat.le_refl _, ?_⟩
      cases r with
      | nil => rw [operands]
      | cons c body =>
          obtain rfl := hcloses c rfl
          rw [operands]
          rfl
    · refine ⟨?_, ?_⟩
      · simp only [List.length_cons]
        omega
      · rw [operands]
        simp only [Joint.ofByte?_byte, if_pos hsame, h, h']

theorem OperandsRead.ends {room : Nat} {joint joint' : Option Joint} {s r : Bytes}
    {fs : List Formula} (h : OperandsRead room joint s joint' fs r) : Ends s := by
  rcases operandsRead_iff.mp h with ⟨hcloses, -⟩ | ⟨j, body, f, next, more, rfl, -⟩
  · exact hcloses.ends
  · exact ends_byte j body

theorem OperandRead.length_lt {room : Nat} {s r : Bytes} {f : Formula}
    (h : OperandRead room s f r) : r.length < s.length := h.1

/-! ## What is read is derived -/

-- The induction is on the bytes that are left: an operand takes one at least, and an
-- expression or the rest of one calls for an operand first.
mutual

/-- What an operand is read from is the text of one, no deeper than there is room for. -/
theorem exists_operand {room : Nat} {s r : Bytes} {f : Formula} (h : OperandRead room s f r) :
    ∃ o : Operand, s = o.text ++ r ∧ f = o.formula ∧ o.depth ≤ room := by
  rcases operandRead_iff.mp h with ⟨inner, body, rfl, rfl, hread⟩
    | ⟨body, t, rfl, hread, hfilled, rfl⟩ | ⟨c, body, rfl, hplain, rfl, rfl⟩
  · obtain ⟨e, rfl, rfl, hdepth⟩ := exists_expression hread
    refine ⟨.group e, ?_, rfl, Nat.succ_le_succ hdepth⟩
    simp [Operand.text]
  · refine ⟨.quoted t hfilled, ?_, rfl, Nat.zero_le _⟩
    rw [quotedRest_eq_ok_iff.mp hread]
    simp [Operand.text]
  · have hword : ∀ b ∈ c :: body.takeWhile isTokenByte, b ∈ wordBytes := by
      intro b hb
      rcases List.mem_cons.mp hb with rfl | hb
      · exact (isTokenByte_iff b).mp hplain
      · exact (isTokenByte_iff b).mp (List.mem_takeWhile_imp hb)
    refine ⟨.word (c :: body.takeWhile isTokenByte) (List.cons_ne_nil _ _) hword, ?_, rfl,
      Nat.zero_le _⟩
    simp [Operand.text, List.takeWhile_append_dropWhile]
termination_by (s.length, 0)

/-- What an expression is read from is the text of one, and it is read to its end. -/
theorem exists_expression {room : Nat} {s r : Bytes} {f : Formula}
    (h : ExpressionRead room s f r) :
    ∃ e : Expression, s = e.text ++ r ∧ f = e.formula ∧ e.depth ≤ room := by
  obtain ⟨f, next, joint, more, hfirst, hmore, rfl⟩ := expressionRead_iff.mp h
  have hlt := hfirst.length_lt
  obtain ⟨first, rfl, rfl, hdepth⟩ := exists_operand hfirst
  rcases operandsRead_iff.mp hmore with ⟨-, rfl, rfl, rfl⟩
    | ⟨j, body, f, next, fs, rfl, -, hsecond, hrest, rfl⟩
  · exact ⟨.alone first, rfl, rfl, hdepth⟩
  · have hlt' := hsecond.length_lt
    obtain ⟨second, rfl, rfl, hdepth'⟩ := exists_operand hsecond
    obtain ⟨rfl, os, rfl, rfl, hdepths⟩ := exists_operands hrest
    refine ⟨.several j first second os, ?_, ?_, ?_⟩
    · simp [Expression.text]
    · cases j <;> rfl
    · simp only [Expression.depth]
      omega
termination_by (s.length, 1)

/-- What the operands behind a joint are read from is their text, each behind that joint. -/
theorem exists_operands {room : Nat} {j : Joint} {joint : Option Joint} {s r : Bytes}
    {fs : List Formula} (h : OperandsRead room (some j) s joint fs r) :
    joint = some j
      ∧ ∃ os : List Operand, s = tailText j os ++ r ∧ fs = formulas os
        ∧ greatestDepth os ≤ room := by
  rcases operandsRead_iff.mp h with ⟨-, rfl, rfl, rfl⟩
    | ⟨j', body, f, next, fs, rfl, hsame, hread, hrest, rfl⟩
  · exact ⟨rfl, [], rfl, rfl, Nat.zero_le _⟩
  · obtain rfl : j' = j := by simpa [eq_comm] using hsame
    have hlt := hread.length_lt
    obtain ⟨o, rfl, rfl, hdepth⟩ := exists_operand hread
    obtain ⟨rfl, os, rfl, rfl, hdepths⟩ := exists_operands hrest
    refine ⟨rfl, o :: os, ?_, rfl, ?_⟩
    · simp [tailText]
    · simp only [greatestDepth]
      omega
termination_by (s.length, 0)

end

/-! ## What is derived is read -/

-- The induction is on the tree. A word is read to its end because what follows an operand,
-- a joint, a closing parenthesis or nothing, is no byte of words.
mutual

/-- The text of an operand is read as that operand, whatever follows its end. -/
theorem operand_reads : (o : Operand) → ∀ room r, o.depth ≤ room → Ends r →
    OperandRead room (o.text ++ r) o.formula r
  | .word (c :: w) filled plain => by
      intro room r _ hends
      obtain ⟨hplain, hw⟩ := List.forall_mem_cons.mp plain
      obtain ⟨htake, hdrop⟩ := takeWhile_word hw hends
      refine operandRead_iff.mpr (Or.inr (Or.inr ⟨c, w ++ r, rfl, ?_, ?_, hdrop.symm⟩))
      · exact (isTokenByte_iff c).mpr hplain
      · rw [htake]
        rfl
  | .quoted t filled => by
      intro room r _ _
      refine operandRead_iff.mpr (Or.inr (Or.inl ⟨escaped t ++ quoteByte :: r, t, ?_, ?_⟩))
      · simp [Operand.text]
      · exact ⟨quotedRest_eq_ok_iff.mpr rfl, filled, rfl⟩
  | .group e => by
      intro room r hdepth _
      obtain ⟨inner, rfl⟩ := Nat.exists_eq_add_of_le' hdepth
      refine operandRead_iff.mpr (Or.inl ⟨e.depth + inner, e.text ++ closeByte :: r, ?_, ?_, ?_⟩)
      · simp only [Operand.depth]
        omega
      · simp [Operand.text]
      · exact expression_reads e _ _ (Nat.le_add_right _ _) (closes_closeByte r)

/-- The text of an expression is read as that expression, up to where it is closed. -/
theorem expression_reads : (e : Expression) → ∀ room r, e.depth ≤ room → Closes r →
    ExpressionRead room (e.text ++ r) e.formula r
  | .alone o => by
      intro room r hdepth hcloses
      refine expressionRead_iff.mpr ⟨o.formula, r, none, [], ?_, ?_, rfl⟩
      · exact operand_reads o room r hdepth hcloses.ends
      · exact operandsRead_iff.mpr (Or.inl ⟨hcloses, rfl, rfl, rfl⟩)
  | .several j first second more => by
      intro room r hdepth hcloses
      simp only [Expression.depth, Nat.max_le] at hdepth
      obtain ⟨hfirst, hsecond, hmore⟩ := hdepth
      have hrest := operands_read j more room r hmore hcloses
      have hsecond := operand_reads second room _ hsecond hrest.ends
      have hfirst := operand_reads first room (j.byte :: (second.text ++ (tailText j more ++ r)))
        hfirst (ends_byte j _)
      have hjoined : OperandsRead room none (j.byte :: (second.text ++ (tailText j more ++ r)))
          (some j) (second.formula :: formulas more) r :=
        operandsRead_iff.mpr (Or.inr ⟨j, _, _, _, _, rfl, Or.inl rfl, hsecond, hrest, rfl⟩)
      have htext : (Expression.several j first second more).text ++ r
          = first.text ++ j.byte :: (second.text ++ (tailText j more ++ r)) := by
        simp only [Expression.text, List.append_assoc, List.cons_append]
      rw [htext]
      refine expressionRead_iff.mpr ⟨_, _, _, _, hfirst, hjoined, ?_⟩
      cases j <;> rfl

/-- The text of operands, each behind a joint, is read as those operands. -/
theorem operands_read (j : Joint) : (os : List Operand) → ∀ room r, greatestDepth os ≤ room →
    Closes r → OperandsRead room (some j) (tailText j os ++ r) (some j) (formulas os) r
  | [] => by
      intro room r _ hcloses
      exact operandsRead_iff.mpr (Or.inl ⟨hcloses, rfl, rfl, rfl⟩)
  | o :: os => by
      intro room r hdepth hcloses
      simp only [greatestDepth, Nat.max_le] at hdepth
      have hrest := operands_read j os room r hdepth.2 hcloses
      have ho := operand_reads o room _ hdepth.1 hrest.ends
      refine operandsRead_iff.mpr (Or.inr ⟨j, _, _, _, _, ?_, Or.inr rfl, ho, hrest, rfl⟩)
      simp [tailText]

end

/-! ## One derivation at most -/

/-- The byte that an operand of this kind begins with, where it is always the same. -/
def Operand.mark : Operand → Option UInt8
  | .word _ _ _ => none
  | .quoted _ _ => some quoteByte
  | .group _ => some openByte

/-- Of which kind an operand is shows by its first byte. -/
theorem Operand.mark_of_text : (o : Operand) → ∀ (r : Bytes) (c : UInt8) (rest : Bytes),
    o.text ++ r = c :: rest → o.mark = if isTokenByte c then none else some c
  | .word (b :: w) _ plain => by
      intro r c rest h
      obtain rfl : b = c := (List.cons.inj h).1
      rw [if_pos ((isTokenByte_iff b).mpr (plain b List.mem_cons_self))]
      rfl
  | .quoted t _ => by
      intro r c rest h
      obtain rfl : quoteByte = c := (List.cons.inj h).1
      rfl
  | .group e => by
      intro r c rest h
      obtain rfl : openByte = c := (List.cons.inj h).1
      rfl

theorem Operand.text_ne_nil : (o : Operand) → o.text ≠ []
  | .word _ filled _ => filled
  | .quoted _ _ => List.cons_ne_nil _ _
  | .group _ => List.cons_ne_nil _ _

theorem Operand.mark_eq {o o' : Operand} {r r' : Bytes} (h : o.text ++ r = o'.text ++ r') :
    o.mark = o'.mark := by
  obtain ⟨c, t, ht⟩ := List.exists_cons_of_ne_nil o.text_ne_nil
  have hcons : o.text ++ r = c :: (t ++ r) := by rw [ht, List.cons_append]
  rw [o.mark_of_text r c _ hcons, o'.mark_of_text r' c _ (h.symm.trans hcons)]

theorem Joint.byte_injective {j j' : Joint} (h : j.byte = j'.byte) : j = j' := by
  have hread := ofByte?_byte j
  rw [h, ofByte?_byte] at hread
  exact (Option.some.inj hread).symm

-- The induction is on the trees. Of two equal texts the first operands are one, and so the
-- bytes behind them are the same again; where one text goes on and the other does not, a
-- joint would have to close an expression.
mutual

/-- An operand and what follows it are known from the bytes. -/
theorem operand_unique : (o o' : Operand) → ∀ r r', Ends r → Ends r' →
    o.text ++ r = o'.text ++ r' → o = o' ∧ r = r'
  | .word w _ plain, .word w' _ plain' => by
      intro r r' hends hends' h
      simp only [Operand.text] at h
      have hw := takeWhile_word plain hends
      have hw' := takeWhile_word plain' hends'
      rw [h] at hw
      exact ⟨by congr 1; exact hw.1.symm.trans hw'.1, hw.2.symm.trans hw'.2⟩
  | .quoted t _, .quoted t' _ => by
      intro r r' _ _ h
      simp only [Operand.text, List.cons_append, List.append_assoc, List.cons.injEq, true_and] at h
      have ht : quotedRest (escaped t ++ quoteByte :: r) = .ok (t, r) :=
        quotedRest_eq_ok_iff.mpr rfl
      rw [List.nil_append, List.nil_append] at h
      rw [quotedRest_eq_ok_iff.mpr h] at ht
      cases ht
      exact ⟨rfl, rfl⟩
  | .group e, .group e' => by
      intro r r' _ _ h
      simp only [Operand.text, List.cons_append, List.append_assoc, List.cons.injEq, true_and] at h
      obtain ⟨rfl, hrest⟩ := expression_unique e e' _ _ (closes_closeByte r) (closes_closeByte r') h
      exact ⟨rfl, (List.cons.inj hrest).2⟩
  | .word _ _ _, .quoted _ _ | .word _ _ _, .group _ | .quoted _ _, .word _ _ _
  | .quoted _ _, .group _ | .group _, .word _ _ _ | .group _, .quoted _ _ => by
      intro r r' _ _ h
      exact absurd (Operand.mark_eq h) (by simp only [Operand.mark]; decide)

/-- An expression and what follows it are known from the bytes. -/
theorem expression_unique : (e e' : Expression) → ∀ r r', Closes r → Closes r' →
    e.text ++ r = e'.text ++ r' → e = e' ∧ r = r'
  | .alone o, .alone o' => by
      intro r r' hcloses hcloses' h
      obtain ⟨rfl, rfl⟩ := operand_unique o o' r r' hcloses.ends hcloses'.ends h
      exact ⟨rfl, rfl⟩
  | .alone o, .several j first second more => by
      intro r r' hcloses _ h
      simp only [Expression.text, List.append_assoc, List.cons_append] at h
      obtain ⟨-, rfl⟩ := operand_unique o first r _ hcloses.ends (ends_byte j _) h
      exact absurd hcloses (not_closes_byte j _)
  | .several j first second more, .alone o => by
      intro r r' _ hcloses' h
      simp only [Expression.text, List.append_assoc, List.cons_append] at h
      obtain ⟨-, rfl⟩ := operand_unique first o _ r' (ends_byte j _) hcloses'.ends h
      exact absurd hcloses' (not_closes_byte j _)
  | .several j first second more, .several j' first' second' more' => by
      intro r r' hcloses hcloses' h
      simp only [Expression.text, List.append_assoc, List.cons_append] at h
      obtain ⟨rfl, hjoint⟩ := operand_unique first first' _ _ (ends_byte j _) (ends_byte j' _) h
      obtain ⟨hbyte, hsecond⟩ := List.cons.inj hjoint
      obtain rfl := Joint.byte_injective hbyte
      obtain ⟨rfl, hmore⟩ := operand_unique second second' _ _ (ends_tailText more hcloses)
        (ends_tailText more' hcloses') hsecond
      obtain ⟨rfl, rfl⟩ := operands_unique j more more' r r' hcloses hcloses' hmore
      exact ⟨rfl, rfl⟩

/-- Operands behind a joint and what follows them are known from the bytes. -/
theorem operands_unique (j : Joint) : (os os' : List Operand) → ∀ r r', Closes r → Closes r' →
    tailText j os ++ r = tailText j os' ++ r' → os = os' ∧ r = r'
  | [], [] => by
      intro r r' _ _ h
      exact ⟨rfl, h⟩
  | [], o' :: os' => by
      intro r r' hcloses _ h
      obtain rfl : r = tailText j (o' :: os') ++ r' := h
      exact absurd hcloses (not_closes_byte j _)
  | o :: os, [] => by
      intro r r' _ hcloses' h
      obtain rfl : tailText j (o :: os) ++ r = r' := h
      exact absurd hcloses' (not_closes_byte j _)
  | o :: os, o' :: os' => by
      intro r r' hcloses hcloses' h
      simp only [tailText, List.append_assoc, List.cons_append, List.cons.injEq, true_and] at h
      obtain ⟨rfl, hmore⟩ := operand_unique o o' _ _ (ends_tailText os hcloses)
        (ends_tailText os' hcloses') h
      obtain ⟨rfl, rfl⟩ := operands_unique j os os' r r' hcloses hcloses' hmore
      exact ⟨rfl, rfl⟩

end

/-! ## Values -/

mutual

/-- The formula of an operand holds where the operand is true. -/
theorem operand_holds (auths : Authorizations) : (o : Operand) →
    o.formula.holds auths = o.value auths
  | .word _ _ _ => rfl
  | .quoted _ _ => rfl
  | .group e => expression_holds auths e

theorem expression_holds (auths : Authorizations) : (e : Expression) →
    e.formula.holds auths = e.value auths
  | .alone o => operand_holds auths o
  | .several .and first second more => by
      simp only [Expression.formula, Expression.value, Formula.holds, Formula.allHold,
        operand_holds auths first, operand_holds auths second, allHold_formulas auths more,
        Bool.and_assoc]
  | .several .or first second more => by
      simp only [Expression.formula, Expression.value, Formula.holds, Formula.anyHolds,
        operand_holds auths first, operand_holds auths second, anyHolds_formulas auths more,
        Bool.or_assoc]

theorem allHold_formulas (auths : Authorizations) : (os : List Operand) →
    Formula.allHold auths (formulas os) = allTrue auths os
  | [] => rfl
  | o :: os => by
      simp only [formulas, Formula.allHold, allTrue, operand_holds auths o,
        allHold_formulas auths os]

theorem anyHolds_formulas (auths : Authorizations) : (os : List Operand) →
    Formula.anyHolds auths (formulas os) = anyTrue auths os
  | [] => rfl
  | o :: os => by
      simp only [formulas, Formula.anyHolds, anyTrue, operand_holds auths o,
        anyHolds_formulas auths os]

end

/-! ## Labels -/

/-- A label is nothing or an expression that takes all of its bytes. -/
theorem parse_eq_ok_iff {l : Bytes} {t : Label} :
    parse l = .ok t ↔
      (l = [] ∧ t = ⟨none⟩) ∨ ∃ f, ExpressionRead 256 l f [] ∧ t = ⟨some f⟩ := by
  rw [parse]
  cases l with
  | nil =>
      constructor
      · intro h
        exact Or.inl ⟨rfl, (Except.ok.inj h).symm⟩
      · rintro (⟨-, rfl⟩ | ⟨f, ⟨fewer, -⟩, -⟩)
        · rfl
        · exact absurd fewer (Nat.not_lt_zero _)
  | cons c body =>
      rw [if_neg (by simp)]
      constructor
      · intro h
        right
        dsimp only at h
        split at h
        · cases h
        · next f fewer hread =>
            exact ⟨f, ⟨fewer, hread⟩, (Except.ok.inj h).symm⟩
        · cases h
      · rintro (⟨hnil, -⟩ | ⟨f, ⟨fewer, hread⟩, rfl⟩)
        · cases hnil
        -- the limit on nesting is the room that reading starts with
        · have hread' : expression nestingLimit (c :: body) = .ok (f, ⟨[], fewer⟩) := hread
          simp only [hread']

/-- The text of a derivation is read as its label. -/
theorem parse_text (d : Derivation) : parse d.text = .ok d.label := by
  cases d with
  | nothing => rfl
  | expression e shallow =>
      have hread := expression_reads e 256 [] shallow closes_nil
      rw [List.append_nil] at hread
      exact parse_eq_ok_iff.mpr (Or.inr ⟨e.formula, hread, rfl⟩)

/-- A fault names the label it was found in and a position there. -/
theorem of_parse_error {l : Bytes} {fault : Label.Fault} (h : parse l = .error fault) :
    fault.label = l ∧ fault.offset ≤ l.length := by
  rw [parse] at h
  split at h
  · cases h
  · dsimp only at h
    split at h
    · cases h
      exact ⟨rfl, Nat.sub_le _ _⟩
    · cases h
    · cases h
      exact ⟨rfl, Nat.sub_le _ _⟩

/-- What can be read is derived. -/
theorem exists_derivation {l : Bytes} {t : Label} (h : parse l = .ok t) :
    ∃ d : Derivation, d.text = l := by
  rcases parse_eq_ok_iff.mp h with ⟨rfl, -⟩ | ⟨f, hread, -⟩
  · exact ⟨.nothing, rfl⟩
  · obtain ⟨e, htext, -, hdepth⟩ := exists_expression hread
    rw [List.append_nil] at htext
    exact ⟨.expression e hdepth, htext.symm⟩

theorem expression_text_ne_nil : (e : Expression) → e.text ≠ []
  | .alone o => o.text_ne_nil
  | .several _ first _ _ => List.append_ne_nil_of_left_ne_nil first.text_ne_nil _

/-- A byte string has one derivation at most. -/
theorem Derivation.text_injective {d d' : Derivation} (h : d.text = d'.text) : d = d' := by
  cases d with
  | nothing =>
      cases d' with
      | nothing => rfl
      | expression e' _ => exact absurd h.symm (expression_text_ne_nil e')
  | expression e shallow =>
      cases d' with
      | nothing => exact absurd h (expression_text_ne_nil e)
      | expression e' shallow' =>
          have hnil : e.text ++ [] = e'.text ++ [] := congrArg (· ++ []) h
          obtain ⟨rfl, -⟩ := expression_unique e e' [] [] closes_nil closes_nil hnil
          rfl

theorem Derivation.holds_label (d : Derivation) (auths : Authorizations) :
    d.label.holds auths = d.value auths := by
  cases d with
  | nothing => rfl
  | expression e _ => exact expression_holds auths e

/-- Labels are read as the grammar derives them. A byte string that is derived has one
derivation; it is read as the tree of that, and whether tokens satisfy what was read is the
value of the derivation. Any other byte string is refused, and the fault names it and a
position in it. -/
theorem parse_derived (l : Bytes) :
    (∃ d : Derivation, (∀ d' : Derivation, d'.text = l ↔ d' = d) ∧ parse l = .ok d.label
      ∧ ∀ auths, d.label.holds auths = d.value auths
        ∧ Evaluator.formula l auths = .ok (d.value auths))
    ∨ ((∀ d : Derivation, d.text ≠ l) ∧ ∃ fault, parse l = .error fault
      ∧ fault.label = l ∧ fault.offset ≤ l.length
      ∧ (CellScan.Fault.label fault).status = some ⟨.labelParse, fault.text⟩
      ∧ ∀ auths, Evaluator.formula l auths = .error (.label fault)) := by
  rcases hparse : parse l with fault | t
  · obtain ⟨hlabel, hoffset⟩ := of_parse_error hparse
    refine Or.inr ⟨?_, fault, rfl, hlabel, hoffset, rfl, ?_⟩
    · rintro d rfl
      rw [parse_text] at hparse
      cases hparse
    · intro auths
      simp only [Evaluator.formula, hparse]
  · obtain ⟨d, rfl⟩ := exists_derivation hparse
    obtain rfl : d.label = t := Except.ok.inj ((parse_text d).symm.trans hparse)
    refine Or.inl ⟨d, fun d' => ⟨Derivation.text_injective, fun h => h ▸ rfl⟩, rfl, ?_⟩
    intro auths
    have hholds := d.holds_label auths
    refine ⟨hholds, ?_⟩
    simp only [Evaluator.formula, hparse, hholds]

end CellScan.Label
