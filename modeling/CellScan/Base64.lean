/-
`Base64.lean` -- bytes as text in base 64.

The standard alphabet, with padding. Three bytes make four characters; one or
two bytes left over make two or three characters and fill the group with `=`.
Decoding is strict: only texts that `encode` produces are read, so padding has
to be there and the bits that it stands for are zero.
-/
import CellScan.Bytes

set_option autoImplicit false

namespace CellScan.Base64

/-- The sixty-four characters in order of their values. -/
def alphabet : List Char :=
  "ABCDEFGHIJKLMNOPQRSTUVWXYZabcdefghijklmnopqrstuvwxyz0123456789+/".toList

/-- The character of a value below sixty-four. -/
def charOf (n : Nat) : Char :=
  if n < 26 then Char.ofNat (65 + n)
  else if n < 52 then Char.ofNat (71 + n)
  else if n < 62 then Char.ofNat (n - 4)
  else if n = 62 then '+' else '/'

/-- The value of a character of the alphabet. -/
def valueOf? (c : Char) : Option Nat :=
  if 'A' ≤ c ∧ c ≤ 'Z' then some (c.toNat - 65)
  else if 'a' ≤ c ∧ c ≤ 'z' then some (c.toNat - 71)
  else if '0' ≤ c ∧ c ≤ '9' then some (c.toNat + 4)
  else if c = '+' then some 62
  else if c = '/' then some 63
  else none

/-- Bytes as characters. -/
def encodeChars : Bytes → List Char
  | [] => []
  | [a] => [charOf (a.toNat / 4), charOf (a.toNat % 4 * 16), '=', '=']
  | [a, b] =>
      [charOf (a.toNat / 4), charOf (a.toNat % 4 * 16 + b.toNat / 16), charOf (b.toNat % 16 * 4), '=']
  | a :: b :: c :: rest =>
      charOf (a.toNat / 4) :: charOf (a.toNat % 4 * 16 + b.toNat / 16)
        :: charOf (b.toNat % 16 * 4 + c.toNat / 64) :: charOf (c.toNat % 64) :: encodeChars rest

/-- The bytes that characters stand for. -/
def decodeChars : List Char → Option Bytes
  | [] => some []
  | [p, q, '=', '='] => do
      let p ← valueOf? p
      let q ← valueOf? q
      if q % 16 = 0 then pure [UInt8.ofNat (p * 4 + q / 16)] else none
  | [p, q, r, '='] => do
      let p ← valueOf? p
      let q ← valueOf? q
      let r ← valueOf? r
      if r % 4 = 0 then
        pure [UInt8.ofNat (p * 4 + q / 16), UInt8.ofNat (q % 16 * 16 + r / 4)]
      else none
  | p :: q :: r :: s :: rest => do
      let p ← valueOf? p
      let q ← valueOf? q
      let r ← valueOf? r
      let s ← valueOf? s
      let more ← decodeChars rest
      pure (UInt8.ofNat (p * 4 + q / 16) :: UInt8.ofNat (q % 16 * 16 + r / 4)
        :: UInt8.ofNat (r % 4 * 64 + s) :: more)
  | _ => none

/-- Bytes as text. -/
def encode (b : Bytes) : String := String.ofList (encodeChars b)

/-- The bytes of a text. -/
def decode? (s : String) : Option Bytes := decodeChars s.toList

/-- Every value has its character, and the character that value. -/
theorem valueOf?_charOf : ∀ n < 64, valueOf? (charOf n) = some n := by decide

end CellScan.Base64
