/-
`Bytes.lean` -- byte strings, the alphabet of every key, value and label.

Byte strings are lists of bytes, compared byte by byte with a proper beginning
before its extensions: core's order on lists. What the rest of the library
needs beyond that order is the *next* byte string, `successor`, and ways to take
one apart: by position, by a beginning (`after?`), and at zero bytes
(`cutAtZero?`, `segments`). The law every bound of a range rests on is that a
byte string lies before its successor; the parts taken off by `after?` and
`cutAtZero?` put together again are the whole.
-/
set_option autoImplicit false

namespace CellScan

/-- A byte string. -/
abbrev Bytes := List UInt8

namespace Bytes

/-- The next byte string in order: the same bytes and a zero byte. -/
def successor (b : Bytes) : Bytes := b ++ [0]

/-- The position of the first `byte` at or after position `start`. -/
def find? (b : Bytes) (byte : UInt8) (start : Nat) : Option Nat :=
  if b.length < start then none
  else ((b.drop start).findIdx? (· == byte)).map (· + start)

/-- The bytes from position `start` up to position `stop`, where both are
positions of `b` in this order. -/
def slice? (b : Bytes) (start stop : Nat) : Option Bytes :=
  if start ≤ stop ∧ stop ≤ b.length then some ((b.drop start).take (stop - start)) else none

/-- `b` followed by all of `parts`. -/
def concat (b : Bytes) (parts : List Bytes) : Bytes := b ++ parts.flatten

/-- Whether `b` begins with the bytes of `start`. -/
def startsWith (b start : Bytes) : Bool := start.isPrefixOf b

/-! ## Taking apart -/

/-- What follows the beginning `start`, if that is one. -/
def after? : Bytes → Bytes → Option Bytes
  | [], b => some b
  | x :: start, y :: b => if x = y then after? start b else none
  | _ :: _, [] => none

/-- The bytes before the first zero byte and the bytes after it. -/
def cutAtZero? : Bytes → Option (Bytes × Bytes)
  | [] => none
  | x :: b =>
      if x = 0 then some ([], b)
      else (cutAtZero? b).map fun (before, after) => (x :: before, after)

/-- The first `n` of the segments that zero bytes divide `b` into, with the zero
bytes between them; all of `b` if it has no more segments than that. -/
def segments : Nat → Bytes → Bytes
  | 0, _ => []
  | _, [] => []
  | n + 1, x :: b =>
      if x = 0 then (if n = 0 then [] else x :: segments n b) else x :: segments (n + 1) b

/-- What follows a beginning, put behind it, is the whole. -/
theorem after?_eq_some_iff {start b rest : Bytes} :
    after? start b = some rest ↔ b = start ++ rest := by
  induction start generalizing b with
  | nil => exact ⟨fun h => Option.some.inj h, fun h => congrArg some h⟩
  | cons x start ih =>
      cases b with
      | nil => simp [after?]
      | cons y b =>
          rw [after?]
          split
          · next h => rw [ih, h, List.cons_append, List.cons.injEq, and_iff_right rfl]
          · next h => simp [Ne.symm h]

/-- The two parts at the first zero byte: there is none in the first. -/
theorem cutAtZero?_eq_some_iff {b before rest : Bytes} :
    cutAtZero? b = some (before, rest) ↔ b = before ++ 0 :: rest ∧ 0 ∉ before := by
  induction b generalizing before with
  | nil => simp [cutAtZero?]
  | cons x b ih =>
      rw [cutAtZero?]
      split
      · next h =>
          subst h
          cases before with
          | nil => simp
          | cons y before => simp +contextual [eq_comm]
      · next h =>
          cases before with
          | nil => simp [h]
          | cons y before =>
              simp only [Option.map_eq_some_iff, Prod.mk.injEq, Prod.exists, List.cons_append,
                List.cons.injEq, List.mem_cons, not_or]
              constructor
              · rintro ⟨w, r, hw, ⟨rfl, rfl⟩, rfl⟩
                exact ⟨⟨rfl, (ih.mp hw).1⟩, Ne.symm h, (ih.mp hw).2⟩
              · rintro ⟨⟨rfl, hb⟩, _, hn⟩
                exact ⟨before, rest, ih.mpr ⟨hb, hn⟩, ⟨rfl, rfl⟩, rfl⟩

/-! ## Order -/

/-- A proper beginning lies before its extensions. -/
theorem compare_append_cons (b : Bytes) (x : UInt8) (r : Bytes) :
    compare b (b ++ x :: r) = .lt := by
  induction b with
  | nil => rfl
  | cons y b ih =>
      have hy : compare y y = .eq := Std.ReflCmp.compare_self
      rw [List.cons_append, List.compare_cons_cons, hy]
      exact ih

/-- A byte string lies before its successor. -/
theorem compare_successor (b : Bytes) : compare b b.successor = .lt :=
  compare_append_cons b 0 []

end Bytes

end CellScan
