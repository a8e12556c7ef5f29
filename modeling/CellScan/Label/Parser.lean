/-
`Label/Parser.lean` -- reading a label.

The grammar: a label is empty or an expression; an expression is one operand,
or several joined by `&`, or several joined by `|`; an operand is a run of token
bytes, a token in quotes, or an expression in parentheses. Parentheses add no
node to the formula, and at most 256 of them may be open at any point.

Reading is by descent. Each function takes the bytes still to be read and gives
back a formula with the bytes left after it, which the type says are fewer, so
the descent ends. A failure carries the bytes unread when it was found; their
number is what the offset of the fault is computed from.
-/
import CellScan.Label
import CellScan.Label.Fault

set_option autoImplicit false

namespace CellScan.Label

/-- How many parentheses may be open at once. -/
def nestingLimit : Nat := 256

/-- The bytes of tokens that need no quotes: letters, digits and five marks. -/
def isTokenByte (b : UInt8) : Bool :=
  (0x30 ≤ b && b ≤ 0x39) || (0x41 ≤ b && b ≤ 0x5a) || (0x61 ≤ b && b ≤ 0x7a)
    || b == 0x5f || b == 0x2d || b == 0x3a || b == 0x2e || b == 0x2f

/-- The byte `(`. -/
def openByte : UInt8 := 0x28

/-- The byte `)`. -/
def closeByte : UInt8 := 0x29

/-- The byte `"`. -/
def quoteByte : UInt8 := 0x22

/-- What joins the operands of an expression. -/
inductive Joint where
  | and
  | or
deriving DecidableEq

/-- The joint written as a byte: `&` or `|`. -/
def Joint.ofByte? (b : UInt8) : Option Joint :=
  if b = 0x26 then some .and else if b = 0x7c then some .or else none

/-- The formula of a first operand and those joined to it. -/
def joined (first : Formula) : Option Joint → List Formula → Formula
  | none, _ => first
  | some .and, more => .all (first :: more)
  | some .or, more => .any (first :: more)

/-- Why reading stopped, and the bytes unread at that point. -/
structure Stop where
  reason : Reason
  unread : Bytes

/-- The bytes left after something has been read from `s`. -/
abbrev Shorter (s : Bytes) : Type := { r : Bytes // r.length < s.length }

/-- The rest of a quoted token, from after its opening quote: its bytes and what
follows the closing quote. A backslash stands before a quote or a backslash that
belongs to the token, and before nothing else. -/
def quotedRest : Bytes → Except Stop (Bytes × Bytes)
  | [] => .error ⟨.unterminatedQuote, []⟩
  | 0x22 :: r => .ok ([], r)
  | 0x5c :: 0x22 :: r => (quotedRest r).map fun (t, left) => (0x22 :: t, left)
  | 0x5c :: 0x5c :: r => (quotedRest r).map fun (t, left) => (0x5c :: t, left)
  | 0x5c :: r => .error ⟨.invalidEscape, 0x5c :: r⟩
  | b :: r => (quotedRest r).map fun (t, left) => (b :: t, left)

/-- A quoted token takes at least its closing quote. -/
theorem length_of_quotedRest {s t left : Bytes} (h : quotedRest s = .ok (t, left)) :
    left.length < s.length := by
  fun_induction quotedRest s generalizing t left with
  | case1 => cases h
  | case2 r =>
      cases h
      exact Nat.lt_succ_self _
  | case3 r ih | case4 r ih | case6 b r h1 h2 h3 h4 ih =>
      cases hr : quotedRest r with
      | error e => rw [hr] at h; cases h
      | ok p =>
          rw [hr] at h
          cases h
          have := ih hr
          simp only [List.length_cons]
          omega
  | case5 r => cases h

/-- Dropping a run of bytes leaves no more than there was. -/
theorem length_dropWhile_le (p : UInt8 → Bool) (s : Bytes) :
    (s.dropWhile p).length ≤ s.length :=
  (List.dropWhile_suffix p).length_le

mutual
/-- One operand, with room for that many more open parentheses. -/
def operand (room : Nat) (s : Bytes) : Except Stop (Formula × Shorter s) :=
  match s with
  | [] => .error ⟨.expectedTerm, []⟩
  | c :: r =>
      if c = openByte then
        match room with
        | 0 => .error ⟨.nestingTooDeep, c :: r⟩
        | inner + 1 =>
            match expression inner r with
            | .error stop => .error stop
            | .ok (_, ⟨[], _⟩) => .error ⟨.missingClose, []⟩
            | .ok (f, ⟨d :: left, fewer⟩) =>
                if d = closeByte then
                  .ok (f, ⟨left, by simp only [List.length_cons] at fewer ⊢; omega⟩)
                else .error ⟨.missingClose, d :: left⟩
      else if c = quoteByte then
        match fewer : quotedRest r with
        | .error stop => .error stop
        | .ok (t, left) =>
            if t.isEmpty then .error ⟨.emptyQuote, left⟩
            else .ok (.token t, ⟨left, by
              have := length_of_quotedRest fewer
              simp only [List.length_cons]
              omega⟩)
      else if isTokenByte c then
        .ok (.token (c :: r.takeWhile isTokenByte), ⟨r.dropWhile isTokenByte, by
          have := length_dropWhile_le isTokenByte r
          simp only [List.length_cons]
          omega⟩)
      else .error ⟨.unexpectedCharacter, c :: r⟩
termination_by (s.length, 0)

/-- One expression, up to the end or to a closing parenthesis. -/
def expression (room : Nat) (s : Bytes) : Except Stop (Formula × Shorter s) :=
  match operand room s with
  | .error stop => .error stop
  | .ok (first, ⟨r, fewer⟩) =>
      match operands room none r with
      | .error stop => .error stop
      | .ok (joint, more, ⟨left, fewer'⟩) => .ok (joined first joint more, ⟨left, by omega⟩)
termination_by (s.length, 1)

/-- The operands after the first, each behind its operator, and the operator they
share. `joint` is the operator seen so far. -/
def operands (room : Nat) (joint : Option Joint) (s : Bytes) :
    Except Stop (Option Joint × List Formula × { r : Bytes // r.length ≤ s.length }) :=
  match s with
  | [] => .ok (joint, [], ⟨[], Nat.le_refl _⟩)
  | c :: r =>
      match Joint.ofByte? c with
      | some j =>
          if joint = none ∨ joint = some j then
            match operand room r with
            | .error stop => .error stop
            | .ok (f, ⟨next, fewer⟩) =>
                match operands room (some j) next with
                | .error stop => .error stop
                | .ok (joint', more, ⟨left, fewer'⟩) =>
                    .ok (joint', f :: more, ⟨left, by simp only [List.length_cons]; omega⟩)
          else .error ⟨.mixedOperators, c :: r⟩
      | none =>
          if c = closeByte then .ok (joint, [], ⟨c :: r, Nat.le_refl _⟩)
          else .error ⟨.expectedOperator, c :: r⟩
termination_by (s.length, 0)
end

/-- Reads a label, all of it. -/
def parse (label : Bytes) : Except Fault Label :=
  if label.isEmpty then .ok empty
  else
    let fault (stop : Stop) : Fault := ⟨stop.reason, label.length - stop.unread.length, label⟩
    match expression nestingLimit label with
    | .error stop => .error (fault stop)
    | .ok (f, ⟨[], _⟩) => .ok ⟨some f⟩
    | .ok (_, ⟨c :: left, _⟩) => .error (fault ⟨.unbalancedClose, c :: left⟩)

end CellScan.Label
