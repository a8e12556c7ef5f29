/-
`Encodings.lean` -- that option texts are read exactly as they are written.

In base 64 a group of characters and the bytes of the group determine each other, so what
is read as some bytes is the one text that they are written as (`decodeChars_eq_some_iff`).
Terms are split at line ends, which are no characters of base 64, and flags are single
bytes; so both lists are read from their own texts and from no others
(`read_iff_written`).
-/
import CellScan.Proofs.Parallel
import CellScan.TermList
import Mathlib.Algebra.GroupWithZero.Nat

set_option autoImplicit false

namespace CellScan

namespace Base64

/-! ## Characters -/

/-- A character that has a value is the character of that value. -/
theorem valueOf?_eq_some_iff {c : Char} {n : Nat} :
    valueOf? c = some n ↔ n < 64 ∧ charOf n = c := by
  constructor
  · intro h
    simp only [valueOf?, Char.le_def, UInt32.le_iff_toNat_le] at h
    have hval : c.val.toNat = c.toNat := rfl
    rw [hval] at h
    split at h
    · next hc =>
        obtain rfl := Option.some.inj h
        have hc : 65 ≤ c.toNat ∧ c.toNat ≤ 90 := hc
        refine ⟨by omega, ?_⟩
        rw [charOf, if_pos (by omega), Nat.add_sub_cancel' hc.1, Char.ofNat_toNat]
    · split at h
      · next hc =>
          obtain rfl := Option.some.inj h
          have hc : 97 ≤ c.toNat ∧ c.toNat ≤ 122 := hc
          refine ⟨by omega, ?_⟩
          rw [charOf, if_neg (by omega), if_pos (by omega), Nat.add_sub_cancel' (by omega),
            Char.ofNat_toNat]
      · split at h
        · next hc =>
            obtain rfl := Option.some.inj h
            have hc : 48 ≤ c.toNat ∧ c.toNat ≤ 57 := hc
            refine ⟨by omega, ?_⟩
            rw [charOf, if_neg (by omega), if_neg (by omega), if_pos (by omega),
              Nat.add_sub_cancel, Char.ofNat_toNat]
        · split at h
          · next hc =>
              obtain rfl := Option.some.inj h
              exact ⟨by decide, hc.symm⟩
          · split at h
            · next hc =>
                obtain rfl := Option.some.inj h
                exact ⟨by decide, hc.symm⟩
            · cases h
  · rintro ⟨hn, rfl⟩
    exact valueOf?_charOf n hn

/-- No value has the padding for its character, or a line end. -/
theorem charOf_ne : ∀ n < 64, charOf n ≠ '=' ∧ charOf n ≠ '\n' := by decide

/-! ## Groups -/

/-- A byte is put together from its parts again. -/
theorem ofNat_eq {n : Nat} {b : UInt8} (h : n = b.toNat) : UInt8.ofNat n = b := by
  rw [h, UInt8.ofNat_toNat]

theorem toNat_ofNat {n : Nat} (h : n < 256) : (UInt8.ofNat n).toNat = n :=
  UInt8.toNat_ofNat_of_lt' h

/-- What bytes are written as is read as those bytes. -/
theorem decodeChars_encodeChars (b : Bytes) : decodeChars (encodeChars b) = some b := by
  fun_induction encodeChars b with
  | case1 => rfl
  | case2 a =>
      have ha := a.toNat_lt
      have hp := valueOf?_charOf (a.toNat / 4) (by omega)
      have hq := valueOf?_charOf (a.toNat % 4 * 16) (by omega)
      have hbyte : UInt8.ofNat (a.toNat / 4 * 4 + a.toNat % 4 * 16 / 16) = a := ofNat_eq (by omega)
      simp only [decodeChars, hp, hq, Option.bind_eq_bind, Option.bind_some, hbyte]
      rw [if_pos (by omega)]
      rfl
  | case3 a b =>
      have ha := a.toNat_lt
      have hb := b.toNat_lt
      have hp := valueOf?_charOf (a.toNat / 4) (by omega)
      have hq := valueOf?_charOf (a.toNat % 4 * 16 + b.toNat / 16) (by omega)
      have hr := valueOf?_charOf (b.toNat % 16 * 4) (by omega)
      have hr' := (charOf_ne (b.toNat % 16 * 4) (by omega)).1
      have hfirst : UInt8.ofNat
          (a.toNat / 4 * 4 + (a.toNat % 4 * 16 + b.toNat / 16) / 16) = a := ofNat_eq (by omega)
      have hsecond : UInt8.ofNat
          ((a.toNat % 4 * 16 + b.toNat / 16) % 16 * 16 + b.toNat % 16 * 4 / 4) = b :=
        ofNat_eq (by omega)
      rw [decodeChars.eq_3 _ _ _ hr', hp, hq, hr]
      simp only [Option.bind_eq_bind, Option.bind_some, hfirst, hsecond]
      rw [if_pos (by omega)]
      rfl
  | case4 a b c rest ih =>
      have ha := a.toNat_lt
      have hb := b.toNat_lt
      have hc := c.toNat_lt
      have hp := valueOf?_charOf (a.toNat / 4) (by omega)
      have hq := valueOf?_charOf (a.toNat % 4 * 16 + b.toNat / 16) (by omega)
      have hr := valueOf?_charOf (b.toNat % 16 * 4 + c.toNat / 64) (by omega)
      have hs := valueOf?_charOf (c.toNat % 64) (by omega)
      have hs' := (charOf_ne (c.toNat % 64) (by omega)).1
      have hfirst : UInt8.ofNat
          (a.toNat / 4 * 4 + (a.toNat % 4 * 16 + b.toNat / 16) / 16) = a := ofNat_eq (by omega)
      have hsecond : UInt8.ofNat ((a.toNat % 4 * 16 + b.toNat / 16) % 16 * 16
          + (b.toNat % 16 * 4 + c.toNat / 64) / 4) = b := ofNat_eq (by omega)
      have hthird : UInt8.ofNat
          ((b.toNat % 16 * 4 + c.toNat / 64) % 4 * 64 + c.toNat % 64) = c := ofNat_eq (by omega)
      rw [decodeChars.eq_4 _ _ _ _ _ (fun _ h _ => hs' h) (fun h _ => hs' h), hp, hq, hr, hs, ih]
      simp only [Option.bind_eq_bind, Option.bind_some, hfirst, hsecond, hthird]
      rfl

/-- What is read as some bytes is what those bytes are written as. -/
theorem encodeChars_of_decodeChars {cs : List Char} {b : Bytes} (h : decodeChars cs = some b) :
    encodeChars b = cs := by
  fun_induction decodeChars cs generalizing b with
  | case1 =>
      cases h
      rfl
  | case2 p q =>
      simp only [Option.bind_eq_bind, Option.bind_eq_some_iff, valueOf?_eq_some_iff] at h
      obtain ⟨p, ⟨hp, rfl⟩, q, ⟨hq, rfl⟩, h⟩ := h
      split at h
      -- what is read has nothing but zeros in the bits that no byte takes
      · next hzero =>
          cases h
          have hbyte := toNat_ofNat (n := p * 4 + q / 16) (by omega)
          have hfirst : (p * 4 + q / 16) / 4 = p := by omega
          have hsecond : (p * 4 + q / 16) % 4 * 16 = q := by omega
          rw [encodeChars, hbyte, hfirst, hsecond]
      · cases h
  | case3 p q r hr =>
      simp only [Option.bind_eq_bind, Option.bind_eq_some_iff, valueOf?_eq_some_iff] at h
      obtain ⟨p, ⟨hp, rfl⟩, q, ⟨hq, rfl⟩, r, ⟨hr, rfl⟩, h⟩ := h
      split at h
      · next hzero =>
          cases h
          have hbyte := toNat_ofNat (n := p * 4 + q / 16) (by omega)
          have hbyte' := toNat_ofNat (n := q % 16 * 16 + r / 4) (by omega)
          have hfirst : (p * 4 + q / 16) / 4 = p := by omega
          have hsecond : (p * 4 + q / 16) % 4 * 16 + (q % 16 * 16 + r / 4) / 16 = q := by omega
          have hthird : (q % 16 * 16 + r / 4) % 16 * 4 = r := by omega
          rw [encodeChars, hbyte, hbyte', hfirst, hsecond, hthird]
      · cases h
  | case4 p q r s rest _ _ ih =>
      simp only [Option.bind_eq_bind, Option.bind_eq_some_iff, valueOf?_eq_some_iff] at h
      obtain ⟨p, ⟨hp, rfl⟩, q, ⟨hq, rfl⟩, r, ⟨hr, rfl⟩, s, ⟨hs, rfl⟩, more, hmore, h⟩ := h
      cases h
      have hbyte := toNat_ofNat (n := p * 4 + q / 16) (by omega)
      have hbyte' := toNat_ofNat (n := q % 16 * 16 + r / 4) (by omega)
      have hbyte'' := toNat_ofNat (n := r % 4 * 64 + s) (by omega)
      have hfirst : (p * 4 + q / 16) / 4 = p := by omega
      have hsecond : (p * 4 + q / 16) % 4 * 16 + (q % 16 * 16 + r / 4) / 16 = q := by omega
      have hthird : (q % 16 * 16 + r / 4) % 16 * 4 + (r % 4 * 64 + s) / 64 = r := by omega
      have hfourth : (r % 4 * 64 + s) % 64 = s := by omega
      rw [encodeChars, hbyte, hbyte', hbyte'', hfirst, hsecond, hthird, hfourth, ih hmore]
  | case5 => cases h

/-- Bytes are read from what they are written as, and from nothing else. -/
theorem decodeChars_eq_some_iff {cs : List Char} {b : Bytes} :
    decodeChars cs = some b ↔ encodeChars b = cs :=
  ⟨encodeChars_of_decodeChars, fun h => h ▸ decodeChars_encodeChars b⟩

theorem decode?_eq_some_iff {s : String} {b : Bytes} : decode? s = some b ↔ encode b = s := by
  rw [decode?, decodeChars_eq_some_iff, encode]
  constructor
  · intro h
    rw [h, String.ofList_toList]
  · rintro rfl
    rw [String.toList_ofList]

/-! ## The format -/

/-- The number that digits spell in a base behind a number that comes before them. -/
def spelled (base start : Nat) (digits : List Nat) : Nat :=
  digits.foldl (fun n d => n * base + d) start

/-- Characters write bytes in base 64: digits in the alphabet and then less than three
characters of padding. There are as many digits as the bits of the bytes need, two more bits
for each character of padding, and these more bits are zero: the digits spell the number that
the bytes spell, shifted by them. -/
def Writes (b : Bytes) (cs : List Char) : Prop :=
  ∃ digits padding, cs = digits.map charOf ++ List.replicate padding '='
    ∧ (∀ d ∈ digits, d < 64) ∧ padding < 3
    ∧ 6 * digits.length = 8 * b.length + 2 * padding
    ∧ ∀ n, spelled 64 n digits = spelled 256 n (b.map UInt8.toNat) * 4 ^ padding

/-- Bytes are written in base 64. -/
theorem writes_encodeChars (b : Bytes) : Writes b (encodeChars b) := by
  fun_induction encodeChars b with
  | case1 => exact ⟨[], 0, rfl, by simp, by decide, rfl, fun n => by simp [spelled]⟩
  | case2 a =>
      have ha := a.toNat_lt
      refine ⟨[a.toNat / 4, a.toNat % 4 * 16], 2, rfl, ?_, by decide, rfl, ?_⟩
      · simp only [List.forall_mem_cons, List.not_mem_nil, false_imp_iff, implies_true, and_true]
        omega
      · intro n
        simp only [spelled, List.map_cons, List.map_nil, List.foldl_cons, List.foldl_nil]
        omega
  | case3 a b =>
      have ha := a.toNat_lt
      have hb := b.toNat_lt
      refine ⟨[a.toNat / 4, a.toNat % 4 * 16 + b.toNat / 16, b.toNat % 16 * 4], 1, rfl, ?_,
        by decide, rfl, ?_⟩
      · simp only [List.forall_mem_cons, List.not_mem_nil, false_imp_iff, implies_true, and_true]
        omega
      · intro n
        simp only [spelled, List.map_cons, List.map_nil, List.foldl_cons, List.foldl_nil]
        omega
  | case4 a b c rest ih =>
      have ha := a.toNat_lt
      have hb := b.toNat_lt
      have hc := c.toNat_lt
      obtain ⟨digits, padding, htext, hdigits, hpadding, hlength, hspelled⟩ := ih
      refine ⟨a.toNat / 4 :: (a.toNat % 4 * 16 + b.toNat / 16)
        :: (b.toNat % 16 * 4 + c.toNat / 64) :: c.toNat % 64 :: digits, padding, ?_, ?_, hpadding,
        ?_, ?_⟩
      · rw [htext]
        rfl
      · simp only [List.forall_mem_cons]
        exact ⟨by omega, by omega, by omega, by omega, hdigits⟩
      · simp only [List.length_cons]
        omega
      · intro n
        -- four digits spell what three bytes do, and the others go on from there
        have hgroup : (((n * 64 + a.toNat / 4) * 64 + (a.toNat % 4 * 16 + b.toNat / 16)) * 64
            + (b.toNat % 16 * 4 + c.toNat / 64)) * 64 + c.toNat % 64
            = ((n * 256 + a.toNat) * 256 + b.toNat) * 256 + c.toNat := by omega
        have hrest := hspelled (((n * 256 + a.toNat) * 256 + b.toNat) * 256 + c.toNat)
        simp only [spelled, List.map_cons, List.foldl_cons] at hrest ⊢
        rw [hgroup, hrest]

/-- A line end is no character of base 64. -/
theorem not_mem_encodeChars (b : Bytes) : '\n' ∉ encodeChars b := by
  obtain ⟨digits, padding, htext, hdigits, -⟩ := writes_encodeChars b
  rw [htext, List.mem_append, List.mem_map, not_or]
  refine ⟨?_, fun h => absurd (List.eq_of_mem_replicate h) (by decide)⟩
  rintro ⟨d, hd, hline⟩
  exact (charOf_ne d (hdigits d hd)).2 hline

end Base64

/-- Where each item is read from what it is written as and from nothing else, so are lists. -/
theorem Parallel.mapM_eq_ok_iff {α β ε : Type} {read : α → Except ε β} {write : β → α}
    (h : ∀ x y, read x = .ok y ↔ write y = x) {xs : List α} {ys : List β} :
    xs.mapM read = .ok ys ↔ ys.map write = xs := by
  rw [← List.forall₂_eq_eq_eq, List.forall₂_map_left_iff]
  constructor
  · intro hread
    exact ((of_mapM_ok hread).imp fun x y => (h x y).mp).flip
  · intro hwrite
    exact mapM_ok (hwrite.flip.imp fun x y => (h x y).mpr)

namespace TermList

open Base64

/-! ## Terms and flags -/

theorem decodeLine_eq_ok_iff {line : List Char} {b : Bytes} :
    decodeLine line = .ok b ↔ encodeChars b = line := by
  rw [← decodeChars_eq_some_iff, decodeLine]
  rcases decodeChars line with _ | b'
  · simp
  · simp

theorem toList_encode (terms : List Bytes) :
    (encode terms).toList = ['\n'].intercalate (terms.map encodeChars) := by
  rw [encode, String.toList_intercalate, List.map_map]
  congr 1
  refine List.map_congr_left fun b _ => ?_
  rw [Function.comp_apply, Base64.encode, String.toList_ofList]

/-- Terms are read from what they are written as, and from nothing else. -/
theorem decode_eq_ok_iff {text : String} {terms : List Bytes} :
    decode text = .ok terms ↔ terms ≠ [] ∧ encode terms = text := by
  rw [decode, Parallel.mapM_eq_ok_iff fun _ _ => decodeLine_eq_ok_iff, ← String.toList_inj,
    toList_encode]
  constructor
  · intro hlines
    refine ⟨?_, ?_⟩
    · rintro rfl
      exact List.splitOn_ne_nil _ _ hlines.symm
    · rw [hlines, List.intercalate_splitOn]
  -- a text is split where the lines were joined, since no line has a line end in it
  · rintro ⟨hterms, htext⟩
    rw [← htext, List.splitOn_intercalate]
    · intro line hline
      obtain ⟨b, -, rfl⟩ := List.mem_map.mp hline
      exact not_mem_encodeChars b
    · rwa [Ne, List.map_eq_nil_iff]

theorem decodeFlag_eq_ok_iff {b : UInt8} {f : Bool} :
    decodeFlag b = .ok f ↔ (if f then 1 else 0) = b := by
  rw [decodeFlag]
  by_cases hzero : b = 0
  · subst hzero
    cases f <;> simp
  · by_cases hone : b = 1
    · subst hone
      cases f <;> simp
    · rw [if_neg hzero, if_neg hone]
      cases f
      · simp [Ne.symm hzero]
      · simp [Ne.symm hone]

/-- Flags are read from what they are written as, and from nothing else. -/
theorem decodeFlags_eq_ok_iff {text : String} {flags : List Bool} :
    decodeFlags text = .ok flags ↔ encodeFlags flags = text := by
  rw [encodeFlags, ← Base64.decode?_eq_some_iff, decodeFlags]
  rcases Base64.decode? text with _ | b
  · simp
  · simp only [Option.some.injEq]
    rw [Parallel.mapM_eq_ok_iff fun _ _ => decodeFlag_eq_ok_iff, eq_comm]

/-- Option texts are read exactly as they are written: terms, of which there is one at least,
from the text that lists them, flags from the text that lists those, and neither from any
other text. Each term on its line and the flags together are written in base 64. -/
theorem read_iff_written :
    (∀ text terms, decode text = .ok terms ↔ terms ≠ [] ∧ encode terms = text)
      ∧ (∀ text flags, decodeFlags text = .ok flags ↔ encodeFlags flags = text)
      ∧ ∀ b, Writes b (Base64.encode b).toList := by
  refine ⟨fun _ _ => decode_eq_ok_iff, fun _ _ => decodeFlags_eq_ok_iff, fun b => ?_⟩
  rw [Base64.encode, String.toList_ofList]
  exact writes_encodeChars b

end TermList

end CellScan
