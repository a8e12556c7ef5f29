/-
`Json/Reader.lean` -- reading JSON.

The reader is strict: no trailing commas, no comments, one value with nothing
but white space around it, control characters in texts only as escapes. It
descends like the grammar; each function gives back the characters left, fewer
than it was given, and so the descent ends.
-/
import CellScan.Json.Decimal
import CellScan.Text.Hex

set_option autoImplicit false

namespace CellScan.Json

open CellScan.Text

/-- The white space between the tokens of JSON. -/
def isSpace (c : Char) : Bool := c == ' ' || c == '\n' || c == '\t' || c == '\r'

/-- The characters from the next token on. -/
def skipSpace (cs : List Char) : List Char := cs.dropWhile isSpace

theorem length_skipSpace_le (cs : List Char) : (skipSpace cs).length ≤ cs.length :=
  (List.dropWhile_suffix isSpace).length_le

/-! ## Texts -/

/-- A piece of a text: a character, or a code unit written by number. -/
inductive Piece where
  | char (c : Char)
  | unit (n : Nat)

/-- What a character stands for after a backslash. -/
def escape? (c : Char) : Option Char :=
  match c with
  | '"' => some '"'
  | '\\' => some '\\'
  | '/' => some '/'
  | 'b' => some '\x08'
  | 'f' => some '\x0c'
  | 'n' => some '\n'
  | 'r' => some '\r'
  | 't' => some '\t'
  | _ => none

/-- The number written by four digits. -/
def unit? (a b c d : Char) : Option Nat := do
  let a ← Hex.value? a
  let b ← Hex.value? b
  let c ← Hex.value? c
  let d ← Hex.value? d
  pure (((a * 16 + b) * 16 + c) * 16 + d)

/-- The rest of a text from after its opening quote: its pieces, the last one
first, and what follows the closing quote. -/
def pieces (done : List Piece) : List Char → Option (List Piece × List Char)
  | [] => none
  | '"' :: rest => some (done, rest)
  | '\\' :: 'u' :: a :: b :: c :: d :: rest =>
      match unit? a b c d with
      | some n => pieces (.unit n :: done) rest
      | none => none
  | '\\' :: e :: rest =>
      match escape? e with
      | some c => pieces (.char c :: done) rest
      | none => none
  | c :: rest => if c.toNat < 0x20 then none else pieces (.char c :: done) rest

/-- A text takes at least its closing quote. -/
theorem length_of_pieces {done ps : List Piece} {cs left : List Char}
    (h : pieces done cs = some (ps, left)) : left.length < cs.length := by
  fun_induction pieces done cs with
  | case1 => cases h
  | case2 =>
      cases h
      exact Nat.lt_succ_self _
  | case3 done a b c d rest n hn ih =>
      have := ih h
      simp only [List.length_cons]
      omega
  | case4 => cases h
  | case5 done e rest he c hc ih =>
      have := ih h
      simp only [List.length_cons]
      omega
  | case6 => cases h
  | case7 => cases h
  | case8 done c rest h1 h2 h3 hc ih =>
      have := ih h
      simp only [List.length_cons]
      omega

/-- Whether a code unit begins a surrogate pair. -/
def isHigh (n : Nat) : Bool := 0xd800 ≤ n && n < 0xdc00

/-- Whether a code unit ends a surrogate pair. -/
def isLow (n : Nat) : Bool := 0xdc00 ≤ n && n < 0xe000

/-- The characters that pieces in order spell: two units that make up a pair are
one character, half a pair is none. -/
def spell : List Piece → Option (List Char)
  | [] => some []
  | .char c :: ps => (spell ps).map (c :: ·)
  | .unit n :: .unit m :: ps =>
      if isHigh n then
        if isLow m then
          (spell ps).map (Char.ofNat (0x10000 + (n - 0xd800) * 0x400 + (m - 0xdc00)) :: ·)
        else none
      else if isLow n then none
      else (spell (.unit m :: ps)).map (Char.ofNat n :: ·)
  | .unit n :: ps =>
      if isHigh n || isLow n then none else (spell ps).map (Char.ofNat n :: ·)

/-- The text that pieces, the last one first, spell. -/
def textOf (ps : List Piece) : Option String := (spell ps.reverse).map String.ofList

/-! ## Values -/

/-- The characters left after something has been read from `cs`. -/
abbrev Fewer (cs : List Char) : Type := { r : List Char // r.length < cs.length }

/-- Keeps a result whose rest is shorter than what was read from. -/
def fewer? {α : Type} (cs : List Char) (r : Option (α × List Char)) : Option (α × Fewer cs) :=
  match r with
  | none => none
  | some (a, left) => if h : left.length < cs.length then some (a, ⟨left, h⟩) else none

/-- The text at the front of `cs`, whose opening quote has been read, and the rest. -/
def text? (cs : List Char) : Option (Option String × Fewer cs) :=
  match h : pieces [] cs with
  | none => none
  | some (ps, left) => some (textOf ps, ⟨left, length_of_pieces h⟩)

/-- The word `null`, `true` or `false` at the front and the rest. -/
def word? (cs : List Char) : Option (Json × List Char) :=
  match cs with
  | 'n' :: 'u' :: 'l' :: 'l' :: rest => some (.null, rest)
  | 't' :: 'r' :: 'u' :: 'e' :: rest => some (.bool true, rest)
  | 'f' :: 'a' :: 'l' :: 's' :: 'e' :: rest => some (.bool false, rest)
  | _ => none

/-- The word or number at the front and the rest. -/
def scalar? (cs : List Char) : Option (Json × List Char) :=
  match word? cs with
  | some r => some r
  | none => (decimal? cs).map fun (d, left) => (.number d.number, left)

/-- What follows a mark, which may follow white space. -/
def mark? (mark : Char) (cs : List Char) : Option (Fewer cs) :=
  match skipSpace cs, length_skipSpace_le cs with
  | [], _ => none
  | c :: left, le => if c = mark then some ⟨left, Nat.lt_of_succ_le le⟩ else none

mutual
/-- The value at the front, which may follow white space, and the rest. -/
def value? (cs : List Char) : Option (Json × Fewer cs) :=
  match h : skipSpace cs with
  | '"' :: rest =>
      match text? rest with
      | none => none
      | some (s, ⟨left, less⟩) => some (.text s, ⟨left, by
          have := length_skipSpace_le cs
          rw [h, List.length_cons] at this
          omega⟩)
  | '[' :: rest =>
      have shorter : rest.length < cs.length := by
        have := length_skipSpace_le cs
        rw [h, List.length_cons] at this
        omega
      match mark? ']' rest with
      | some ⟨left, less⟩ => some (.list [], ⟨left, by omega⟩)
      | none =>
          match items? rest with
          | none => none
          | some (vs, ⟨left, less⟩) => some (.list vs, ⟨left, by omega⟩)
  | '\x7b' :: rest =>
      have shorter : rest.length < cs.length := by
        have := length_skipSpace_le cs
        rw [h, List.length_cons] at this
        omega
      match mark? '\x7d' rest with
      | some ⟨left, less⟩ => some (.record [], ⟨left, by omega⟩)
      | none =>
          match members? rest with
          | none => none
          | some (ms, ⟨left, less⟩) => some (.record ms, ⟨left, by omega⟩)
  | other =>
      match fewer? other (scalar? other) with
      | none => none
      | some (v, ⟨left, less⟩) => some (v, ⟨left, by
          have := length_skipSpace_le cs
          rw [h] at this
          omega⟩)
termination_by (cs.length, 0)

/-- The items of a list from the next one on, through the closing bracket. -/
def items? (cs : List Char) : Option (List Json × Fewer cs) :=
  match value? cs with
  | none => none
  | some (v, ⟨rest, less⟩) =>
      match mark? ']' rest, mark? ',' rest with
      | some ⟨left, le⟩, _ => some ([v], ⟨left, by omega⟩)
      | none, some ⟨more, le⟩ =>
          match items? more with
          | none => none
          | some (vs, ⟨left, less'⟩) => some (v :: vs, ⟨left, by omega⟩)
      | none, none => none
termination_by (cs.length, 1)

/-- The members of a record from the next one on, through the closing brace. -/
def members? (cs : List Char) : Option (List (Option String × Json) × Fewer cs) :=
  match mark? '"' cs with
  | none => none
  | some ⟨start, lessStart⟩ =>
      match text? start with
      | none => none
      | some (name, ⟨afterName, lessName⟩) =>
          match mark? ':' afterName with
          | none => none
          | some ⟨body, lessBody⟩ =>
              match value? body with
              | none => none
              | some (v, ⟨rest, less⟩) =>
                  match mark? '\x7d' rest, mark? ',' rest with
                  | some ⟨left, le⟩, _ => some ([(name, v)], ⟨left, by omega⟩)
                  | none, some ⟨more, le⟩ =>
                      match members? more with
                      | none => none
                      | some (ms, ⟨left, less'⟩) => some ((name, v) :: ms, ⟨left, by omega⟩)
                  | none, none => none
termination_by (cs.length, 1)
end

/-- The value that a whole text is, white space around it apart. -/
def parse? (s : String) : Option Json :=
  match value? s.toList with
  | some (v, ⟨left, _⟩) => if (skipSpace left).isEmpty then some v else none
  | none => none

end CellScan.Json
