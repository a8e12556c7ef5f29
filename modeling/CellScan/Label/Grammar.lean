/-
`Label/Grammar.lean` -- the language of labels, apart from how labels are read.

    label      = nothing | expression
    expression = operand | operand ('&' operand)+ | operand ('|' operand)+
    operand    = word | '"' token '"' | '(' expression ')'

A derivation is a tree over these rules. What it derives is its `text`. What it means is
said twice: by the formula it stands for, to which parentheses add nothing, and by its
value where exactly the presented tokens are true. A word needs no quotes; any other token
is written between quotes, with a backslash before each quote and each backslash in it.
What may follow an operand is never a byte of words, so a word is all the bytes of words
that stand together. At most 256 parentheses may be open at any point, which bounds the
depth of the tree.
-/
import CellScan.Label.Parser

set_option autoImplicit false

namespace CellScan.Label

/-- The bytes that words are made of. -/
def wordBytes : Bytes :=
  "ABCDEFGHIJKLMNOPQRSTUVWXYZabcdefghijklmnopqrstuvwxyz0123456789_-:./".toList.map fun c =>
    UInt8.ofNat c.toNat

/-- The byte that a joint is written as. -/
def Joint.byte : Joint → UInt8
  | .and => 0x26
  | .or => 0x7c

/-- A byte of a token between quotes. -/
def escapedByte (b : UInt8) : Bytes := if b = 0x22 ∨ b = 0x5c then [0x5c, b] else [b]

/-- A token between quotes, without them. -/
def escaped (token : Bytes) : Bytes := token.flatMap escapedByte

/-! ## Derivations -/

mutual
/-- An operand: a word, a token in quotes, or an expression in parentheses. -/
inductive Operand where
  | word (token : Bytes) (filled : token ≠ []) (plain : ∀ b ∈ token, b ∈ wordBytes)
  | quoted (token : Bytes) (filled : token ≠ [])
  | group (inner : Expression)

/-- An expression: an operand alone, or two of them or more with one joint between all. -/
inductive Expression where
  | alone (operand : Operand)
  | several (joint : Joint) (first second : Operand) (more : List Operand)
end

/-! ### What is derived -/

mutual
/-- The bytes of an operand. -/
def Operand.text : Operand → Bytes
  | .word token _ _ => token
  | .quoted token _ => quoteByte :: (escaped token ++ [quoteByte])
  | .group inner => openByte :: (inner.text ++ [closeByte])

/-- The bytes of an expression. -/
def Expression.text : Expression → Bytes
  | .alone o => o.text
  | .several joint first second more =>
      first.text ++ joint.byte :: (second.text ++ tailText joint more)

/-- The bytes of operands, each behind the joint. -/
def tailText (joint : Joint) : List Operand → Bytes
  | [] => []
  | o :: os => joint.byte :: (o.text ++ tailText joint os)
end

mutual
/-- How many parentheses are open at the deepest point of an operand. -/
def Operand.depth : Operand → Nat
  | .word _ _ _ => 0
  | .quoted _ _ => 0
  | .group inner => inner.depth + 1

/-- How many parentheses are open at the deepest point of an expression. -/
def Expression.depth : Expression → Nat
  | .alone o => o.depth
  | .several _ first second more => max first.depth (max second.depth (greatestDepth more))

/-- The greatest depth of the operands. -/
def greatestDepth : List Operand → Nat
  | [] => 0
  | o :: os => max o.depth (greatestDepth os)
end

/-! ### What is meant -/

mutual
/-- The formula of an operand. -/
def Operand.formula : Operand → Formula
  | .word token _ _ => .token token
  | .quoted token _ => .token token
  | .group inner => inner.formula

/-- The formula of an expression: one node for all operands of a joint. -/
def Expression.formula : Expression → Formula
  | .alone o => o.formula
  | .several .and first second more => .all (first.formula :: second.formula :: formulas more)
  | .several .or first second more => .any (first.formula :: second.formula :: formulas more)

/-- The formulas of operands in order. -/
def formulas : List Operand → List Formula
  | [] => []
  | o :: os => o.formula :: formulas os
end

mutual
/-- The value of an operand where the presented tokens are true and no others. -/
def Operand.value (auths : Authorizations) : Operand → Bool
  | .word token _ _ => auths.contains token
  | .quoted token _ => auths.contains token
  | .group inner => inner.value auths

/-- The value of an expression: true if all its operands are, or if one of them is. -/
def Expression.value (auths : Authorizations) : Expression → Bool
  | .alone o => o.value auths
  | .several .and first second more =>
      first.value auths && second.value auths && allTrue auths more
  | .several .or first second more =>
      first.value auths || second.value auths || anyTrue auths more

/-- Whether all of the operands are true. -/
def allTrue (auths : Authorizations) : List Operand → Bool
  | [] => true
  | o :: os => o.value auths && allTrue auths os

/-- Whether one of the operands is true. -/
def anyTrue (auths : Authorizations) : List Operand → Bool
  | [] => false
  | o :: os => o.value auths || anyTrue auths os
end

/-! ## Labels -/

/-- A derivation of a label. -/
inductive Derivation where
  | nothing
  | expression (e : Expression) (shallow : e.depth ≤ 256)

namespace Derivation

/-- The byte string that is derived. -/
def text : Derivation → Bytes
  | .nothing => []
  | .expression e _ => e.text

/-- The label as a tree of tokens. -/
def label : Derivation → Label
  | .nothing => ⟨none⟩
  | .expression e _ => ⟨some e.formula⟩

/-- The value of a label where the presented tokens are true and no others. That of the
empty label is true. -/
def value (auths : Authorizations) : Derivation → Bool
  | .nothing => true
  | .expression e _ => e.value auths

end Derivation

end CellScan.Label
