import Mathlib
import Statsdcc.Lib.Double

/-!
# `sscanf`

The conversions of `sscanf` that read text up to a delimiter and floating point
numbers, as the C standard specifies them: an input item is the longest
sequence that is, or is a prefix of, a matching sequence, and the first
directive that fails ends the call.

## Main definitions

- `scanNumber` — what `%lf` reads
- `sscanf` — the conversions assigned before the first failure
- `splitField` — the text before a delimiter, and the text behind it

## Main results

- `sscanf_field_some`, `sscanf_field_none` — `%<w>[^x]x` reads one delimited
  field of at most `w` characters, or ends the call
-/

open Bytes

/-- The number that `strtod` reads. -/
inductive Number
  | finite (q : ℚ)
  | inf (neg : Bool)
  | nan
  deriving DecidableEq

namespace Number

/-- A number out of range becomes `HUGE_VAL` with its sign. -/
def toDouble {R : Type} [CDouble R] : Number → R
  | finite q => (CDouble.ofRat q).getD (CDouble.inf (decide (q < 0)))
  | inf neg => CDouble.inf neg
  | nan => CDouble.nan

end Number

/-- A letter in lower case. -/
def lower (c : Byte) : Byte := if 65 ≤ c.toNat ∧ c.toNat ≤ 90 then c + 32 else c

/-- The string starts with the word, in letters of either case. -/
def startsWith (word s : Bytes) : Bool := word.isPrefixOf (s.map lower)

/-- The value of a hexadecimal digit. -/
def hexDigit? (c : Byte) : Option ℕ :=
  if 48 ≤ c.toNat ∧ c.toNat ≤ 57 then some (c.toNat - 48)
  else if 97 ≤ (lower c).toNat ∧ (lower c).toNat ≤ 102 then some ((lower c).toNat - 87)
  else none

/-- Read the longest run of hexadecimal digits. -/
def scanHexDigits : Bytes → List ℕ × Bytes
  | [] => ([], [])
  | c :: s =>
    match hexDigit? c with
    | some d => (d :: (scanHexDigits s).1, (scanHexDigits s).2)
    | none => ([], c :: s)

/-- Read a binary exponent `p[+-]digits`. -/
def scanBinaryExponent : Bytes → Option (ℤ × Bytes)
  | c :: s =>
    if lower c = 112 then
      let digits := scanDigits (scanSign s).2
      if digits.1 = [] then none
      else some ((scanSign s).1.apply (digits.1.value : ℤ), digits.2)
    else some (0, c :: s)
  | [] => some (0, [])

/-- Read a hexadecimal number, behind its `0x`. -/
def scanHex (sign : Sign) (s : Bytes) : Option (Number × Bytes) :=
  let int := scanHexDigits s
  let frac := match int.2 with
    | c :: t => if c = point then scanHexDigits t else ([], c :: t)
    | [] => ([], [])
  let digits := int.1 ++ frac.1
  if digits = [] then none
  else (scanBinaryExponent frac.2).map fun exp =>
    (.finite (sign.apply ((digits.foldl (fun n d => 16 * n + d) 0 : ℚ) /
      16 ^ frac.1.length * 2 ^ exp.1)), exp.2)

/-- Read `inf` or `infinity`; a part of the longer word is a failure. -/
def scanInfinity (sign : Sign) (s : Bytes) : Option (Number × Bytes) :=
  if startsWith (ascii "infinity") s then some (.inf (sign = .minus), s.drop 8)
  else if startsWith (ascii "infi") s then none
  else some (.inf (sign = .minus), s.drop 3)

/-- Read `nan`, or `nan` with a sequence of letters, digits and underscores in
parentheses; an open parenthesis that is not closed is a failure. -/
def scanNan (s : Bytes) : Option (Number × Bytes) :=
  match s.drop 3 with
  | 40 :: t =>
    match t.dropWhile fun c =>
        (48 ≤ c.toNat && c.toNat ≤ 57) || (97 ≤ (lower c).toNat && (lower c).toNat ≤ 122) ||
          c = underscore with
    | 41 :: u => some (.nan, u)
    | _ => none
  | t => some (.nan, t)

/-- The floating point number at the start of a string. -/
def scanNumber (s : Bytes) : Option (Number × Bytes) :=
  let sign := scanSign s
  if startsWith (ascii "0x") sign.2 then scanHex sign.1 (sign.2.drop 2)
  else if startsWith (ascii "inf") sign.2 then scanInfinity sign.1 sign.2
  else if startsWith (ascii "nan") sign.2 then scanNan sign.2
  else (scanDecimal s).map fun d => (.finite d.1.value, d.2)

theorem startsWith_eq_false {word s : Bytes} {c : Byte} (hc : c ∈ word)
    (hs : ∀ b ∈ s, lower b ≠ c) : startsWith word s = false := by
  by_contra h
  rw [Bool.not_eq_false, startsWith, List.isPrefixOf_iff_prefix] at h
  obtain ⟨b, hb, hbc⟩ := List.mem_map.mp (h.subset hc)
  exact hs b hb hbc

namespace Decimal

/-- The letters of `0x`, `inf` and `nan` do not occur in a decimal text. -/
theorem lower_ne (d : Decimal) : ∀ c ∈ d.text, lower c ≠ 110 ∧ lower c ≠ 120 := by
  have hdigit : ∀ i, lower (Digits.byte i) ≠ 110 ∧ lower (Digits.byte i) ≠ 120 := by decide
  intro c hc
  rcases mem_text hc with rfl | rfl | rfl | rfl | rfl | ⟨i, rfl⟩
  case inr.inr.inr.inr.inr => exact hdigit i
  all_goals decide

/-- The same behind the sign. -/
theorem lower_ne_unsigned (d : Decimal) :
    ∀ c ∈ (scanSign d.text).2, lower c ≠ 110 ∧ lower c ≠ 120 := by
  intro c hc
  refine d.lower_ne c ?_
  rw [← text_of_scanSign d.text]
  exact List.mem_append_right _ hc

theorem not_isSpace (d : Decimal) : ∀ c ∈ d.text, isSpace c = false := by
  have hdigit : ∀ i, isSpace (Digits.byte i) = false := by decide
  intro c hc
  rcases mem_text hc with rfl | rfl | rfl | rfl | rfl | ⟨i, rfl⟩
  case inr.inr.inr.inr.inr => exact hdigit i
  all_goals decide

theorem dropWhile_isSpace (d : Decimal) : d.text.dropWhile isSpace = d.text := by
  cases hd : d.text with
  | nil => rfl
  | cons c s =>
    have hc := d.not_isSpace c (by rw [hd]; exact .head _)
    rw [List.dropWhile_cons_of_neg (by simp [hc])]

/-- `%lf` reads a decimal text to its end. -/
theorem scanNumber_text (d : Decimal) : scanNumber d.text = some (.finite d.value, []) := by
  have hne := d.lower_ne_unsigned
  have hx : startsWith (ascii "0x") (scanSign d.text).2 = false :=
    startsWith_eq_false (c := 120) (by decide) fun b hb => (hne b hb).2
  have hinf : startsWith (ascii "inf") (scanSign d.text).2 = false :=
    startsWith_eq_false (c := 110) (by decide) fun b hb => (hne b hb).1
  have hnan : startsWith (ascii "nan") (scanSign d.text).2 = false :=
    startsWith_eq_false (c := 110) (by decide) fun b hb => (hne b hb).1
  simp only [scanNumber, hx, hinf, hnan, Bool.false_eq_true, if_false, scanDecimal_text,
    Option.map_some]

end Decimal

/-- A directive of a `scanf` format. -/
inductive Directive
  /-- An ordinary character. -/
  | lit (c : Byte)
  /-- `%<width>[^<stop>]` -/
  | scanset (width : ℕ) (stop : Byte)
  /-- `%lf` -/
  | float
  deriving DecidableEq

/-- A value that a conversion assigns. -/
inductive Conversion (R : Type)
  | str (s : Bytes)
  | num (x : R)

/-- What `%<width>[^<stop>]` matches. -/
def scansetItem (width : ℕ) (stop : Byte) (s : Bytes) : Bytes :=
  (s.take width).takeWhile (· ≠ stop)

/-- A scanset reads up to its width, to the end, or to its stop character. -/
theorem scansetItem_end (width : ℕ) (stop : Byte) (s : Bytes) :
    (scansetItem width stop s).length = width ∨ s.drop (scansetItem width stop s).length = [] ∨
      (s.drop (scansetItem width stop s).length).head? = some stop := by
  induction s generalizing width with
  | nil => simp
  | cons c s ih =>
    cases width with
    | zero => simp [scansetItem]
    | succ width =>
      by_cases hc : c = stop
      · simp [scansetItem, hc]
      · have hitem : scansetItem (width + 1) stop (c :: s) = c :: scansetItem width stop s := by
          simp [scansetItem, hc]
        rw [hitem, List.length_cons, List.drop_succ_cons, Nat.add_right_cancel_iff]
        exact ih width

theorem scansetItem_append_drop (width : ℕ) (stop : Byte) (s : Bytes) :
    scansetItem width stop s ++ s.drop (scansetItem width stop s).length = s := by
  have hpre : scansetItem width stop s <+: s :=
    (List.takeWhile_prefix _).trans (List.take_prefix _ _)
  exact List.prefix_iff_eq_append.mp hpre

/-- A scanset cuts a text that ends at its stop character to its width. -/
theorem scansetItem_append (width : ℕ) {stop : Byte} {s rest : Bytes} (hs : stop ∉ s)
    (hrest : rest = [] ∨ rest.head? = some stop) :
    scansetItem width stop (s ++ rest) = s.take width := by
  have htake : stop ∉ s.take width := fun h => hs (List.mem_of_mem_take h)
  rw [scansetItem, List.take_append]
  rcases hrest with rfl | hhead
  · rw [List.take_nil, List.append_nil, takeWhile_ne_eq_self htake]
  · obtain ⟨tail, rfl⟩ := List.head?_eq_some_iff.mp hhead
    cases width - s.length with
    | zero => rw [List.take_zero, List.append_nil, takeWhile_ne_eq_self htake]
    | succ n => rw [List.take_succ_cons, takeWhile_ne_append htake]

/-- What a cut text leaves behind stands before the rest. -/
theorem drop_length_take_append {α : Type*} (width : ℕ) (s rest : List α) :
    (s ++ rest).drop (s.take width).length = s.drop width ++ rest := by
  have hsplit : s ++ rest = s.take width ++ (s.drop width ++ rest) := by
    rw [← List.append_assoc, List.take_append_drop]
  rw [hsplit, List.drop_left]

theorem length_scansetItem_le (width : ℕ) (stop : Byte) (s : Bytes) :
    (scansetItem width stop s).length ≤ width :=
  (List.takeWhile_prefix _).length_le.trans (List.length_take_le _ _)

section

variable {R : Type} [CDouble R]

/-- The values assigned, in order, until a directive fails or the format ends. -/
def sscanf (s : Bytes) : List Directive → List (Conversion R)
  | [] => []
  | .lit c :: fmt =>
    match s with
    | b :: rest => if b = c then sscanf rest fmt else []
    | [] => []
  | .scanset width stop :: fmt =>
    let item := scansetItem width stop s
    if item = [] then [] else .str item :: sscanf (s.drop item.length) fmt
  | .float :: fmt =>
    match scanNumber (s.dropWhile isSpace) with
    | some (x, rest) => .num x.toDouble :: sscanf rest fmt
    | none => []

/-- The text before the first `stop`, if it has between `1` and `width`
characters, and the text behind that `stop`. -/
def splitField (width : ℕ) (stop : Byte) (s : Bytes) : Option (Bytes × Bytes) :=
  let item := s.takeWhile (· ≠ stop)
  if item ≠ [] ∧ item.length ≤ width ∧ item.length < s.length then
    some (item, s.drop (item.length + 1))
  else none

theorem splitField_eq_some {width : ℕ} {stop : Byte} {s item rest : Bytes} :
    splitField width stop s = some (item, rest) ↔
      s = item ++ stop :: rest ∧ stop ∉ item ∧ item ≠ [] ∧ item.length ≤ width := by
  constructor
  · intro h
    rw [splitField] at h
    split_ifs at h with hc
    cases h
    exact ⟨takeWhile_ne_decompose hc.2.2, not_mem_takeWhile_ne stop s, hc.1, hc.2.1⟩
  · rintro ⟨rfl, hstop, hne, hw⟩
    rw [splitField, takeWhile_ne_append hstop, if_pos ⟨hne, hw, by simp⟩]
    simp

/-- A field behind which its delimiter stands is assigned, and the call goes on
behind the delimiter. -/
theorem sscanf_field_some {width : ℕ} {stop : Byte} {s item rest : Bytes}
    (h : splitField width stop s = some (item, rest)) (fmt : List Directive) :
    sscanf (R := R) s (.scanset width stop :: .lit stop :: fmt) = .str item :: sscanf rest fmt := by
  obtain ⟨rfl, hstop, hne, hw⟩ := splitField_eq_some.mp h
  have hitem : scansetItem width stop (item ++ stop :: rest) = item := by
    rw [scansetItem_append width hstop (.inr rfl), List.take_of_length_le hw]
  simp only [sscanf, hitem, if_neg hne, List.drop_left, if_true]

/-- Without such a field nothing is assigned behind the scanset. -/
theorem sscanf_field_none {width : ℕ} {stop : Byte} {s : Bytes}
    (h : splitField width stop s = none) (fmt : List Directive) :
    (sscanf (R := R) s (.scanset width stop :: .lit stop :: fmt)).length ≤ 1 := by
  by_cases hitem : scansetItem width stop s = []
  · simp [sscanf, hitem]
  · have hrest : ∀ c rest, s.drop (scansetItem width stop s).length = c :: rest → c ≠ stop := by
      rintro c rest hdrop rfl
      have hs : s = scansetItem width c s ++ c :: rest := by
        rw [← hdrop, scansetItem_append_drop]
      have hsome := splitField_eq_some.mpr
        ⟨hs, not_mem_takeWhile_ne c (s.take width), hitem, length_scansetItem_le width c s⟩
      rw [h] at hsome
      cases hsome
    simp only [sscanf, if_neg hitem]
    cases hdrop : s.drop (scansetItem width stop s).length with
    | nil => simp
    | cons c rest => simp [hrest c rest hdrop]

end
