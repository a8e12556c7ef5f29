/-
`Bytes/Utf8.lean` -- byte strings as UTF-8 text.

`ofString` writes text as bytes and `toString?` reads it back where the bytes
are well formed. `toLossy` reads any bytes: each longest piece that begins a
character but cannot be completed, and each byte that begins none, becomes one
replacement character U+FFFD. On well formed bytes it gives the text itself
(`toLossy_ofString`).
-/
import CellScan.Bytes

set_option autoImplicit false

namespace CellScan.Bytes

/-- The UTF-8 bytes of a text. -/
def ofString (s : String) : Bytes := s.toUTF8.data.toList

/-- The text of well formed UTF-8 bytes. -/
def toString? (b : Bytes) : Option String := String.fromUTF8? ⟨b.toArray⟩

/-! ## Reading bytes that need not be well formed -/

/-- A character whose first bytes have been read: its bits so far, how many
bytes are missing, and the bounds of the next one. -/
structure Begun where
  bits : Nat
  missing : Nat
  least : UInt8
  most : UInt8

/-- What the first byte of a character of several bytes says about the rest.
The bounds on the second byte leave out overlong forms, surrogates and numbers
past the last code point. -/
def Begun.ofLead? (b : UInt8) : Option Begun :=
  if 0xc2 ≤ b ∧ b ≤ 0xdf then some ⟨b.toNat - 0xc0, 1, 0x80, 0xbf⟩
  else if b = 0xe0 then some ⟨0, 2, 0xa0, 0xbf⟩
  else if b = 0xed then some ⟨0xd, 2, 0x80, 0x9f⟩
  else if 0xe1 ≤ b ∧ b ≤ 0xef then some ⟨b.toNat - 0xe0, 2, 0x80, 0xbf⟩
  else if b = 0xf0 then some ⟨0, 3, 0x90, 0xbf⟩
  else if b = 0xf4 then some ⟨4, 3, 0x80, 0x8f⟩
  else if 0xf1 ≤ b ∧ b ≤ 0xf3 then some ⟨b.toNat - 0xf0, 3, 0x80, 0xbf⟩
  else none

/-- What one byte adds where no character is begun. -/
def lossyStart (b : UInt8) : List Char × Option Begun :=
  if b < 0x80 then ([Char.ofNat b.toNat], none)
  else match Begun.ofLead? b with
    | some begun => ([], some begun)
    | none => (['\uFFFD'], none)

/-- What one byte adds to the text, given the character begun before it. -/
def lossyStep (begun : Option Begun) (b : UInt8) : List Char × Option Begun :=
  match begun with
  | none => lossyStart b
  | some c =>
      if c.least ≤ b ∧ b ≤ c.most then
        let bits := c.bits * 64 + (b.toNat - 0x80)
        if c.missing = 1 then ([Char.ofNat bits], none)
        else ([], some ⟨bits, c.missing - 1, 0x80, 0xbf⟩)
      else
        let next := lossyStart b
        ('\uFFFD' :: next.1, next.2)

/-- The characters read from bytes after a character begun before them. -/
def lossyChars (begun : Option Begun) : Bytes → List Char
  | [] => if begun.isSome then ['\uFFFD'] else []
  | b :: rest =>
      let next := lossyStep begun b
      next.1 ++ lossyChars next.2 rest

/-- The text of any bytes, with replacement characters where they are not
well formed. -/
def toLossy (b : Bytes) : String :=
  match b.toString? with
  | some s => s
  | none => String.ofList (lossyChars none b)

/-! ## Writing and reading back -/

/-- Reading the bytes of a text gives the text. -/
@[simp] theorem toString?_ofString (s : String) : (ofString s).toString? = some s := by
  have eta : (⟨s.toUTF8.data.toList.toArray⟩ : ByteArray) = s.toByteArray := rfl
  rw [toString?, ofString, eta, String.fromUTF8?]
  simp [s.isValidUTF8, String.fromUTF8]

/-- Well formed bytes are the bytes of the text that they are read as. -/
theorem eq_ofString_of_toString? {b : Bytes} {s : String} (h : b.toString? = some s) :
    b = ofString s := by
  rw [toString?, String.fromUTF8?] at h
  split at h
  · injection h with h
    subst h
    rfl
  · cases h

/-- Text survives the reading that replaces. -/
@[simp] theorem toLossy_ofString (s : String) : (ofString s).toLossy = s := by
  simp [toLossy]

end CellScan.Bytes
