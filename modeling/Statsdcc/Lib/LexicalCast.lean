import Mathlib
import Statsdcc.Lib.Scanf

/-!
# `boost::lexical_cast<double>`

The cast reads a whole string as one number and throws otherwise. A program
that calls it is modelled over an arbitrary function that meets
`LexicalCastSpec`; `lexicalCast` is one that does.
-/

open Bytes

/-- The texts of infinities and NaN, as the cast recognises them. -/
def specialText (s : Bytes) : Option Number :=
  let body := (scanSign s).2
  let neg := decide ((scanSign s).1 = .minus)
  if startsWith (ascii "nan") body then
    match body.drop 3 with
    | [] => some .nan
    | c :: t => if c = 40 ∧ t.getLast? = some 41 then some .nan else none
  else if body.map lower = ascii "inf" ∨ body.map lower = ascii "infinity" then some (.inf neg)
  else none

/-- A text that denotes a number as a whole. -/
inductive NumberText : Bytes → Prop
  | decimal (d : Decimal) : NumberText d.text
  | special {s : Bytes} {x : Number} (h : specialText s = some x) : NumberText s

/-- What a caller of the cast relies on. -/
structure LexicalCastSpec {R : Type} [CDouble R] (cast : Bytes → Option R) : Prop where
  decimal (d : Decimal) : cast d.text = CDouble.ofRat d.value
  number {s : Bytes} {x : R} : cast s = some x → NumberText s

/-- Read a whole string as a number. -/
def lexicalCast {R : Type} [CDouble R] (s : Bytes) : Option R :=
  match specialText s with
  | some x => some x.toDouble
  | none =>
    match scanDecimal s with
    | some (d, []) => CDouble.ofRat d.value
    | _ => none

/-- A decimal text is no text of an infinity or of NaN. -/
theorem specialText_decimal (d : Decimal) : specialText d.text = none := by
  have hne := d.lower_ne_unsigned
  have hnan : startsWith (ascii "nan") (scanSign d.text).2 = false :=
    startsWith_eq_false (c := 110) (by decide) fun b hb => (hne b hb).1
  have hword : ∀ word : Bytes, 110 ∈ word → (scanSign d.text).2.map lower ≠ word := by
    rintro _ hmem rfl
    obtain ⟨b, hb, hbc⟩ := List.mem_map.mp hmem
    exact (hne b hb).1 hbc
  have hinf : ¬((scanSign d.text).2.map lower = ascii "inf" ∨
      (scanSign d.text).2.map lower = ascii "infinity") :=
    fun h => h.elim (hword _ (by decide)) (hword _ (by decide))
  simp only [specialText, hnan, Bool.false_eq_true, if_false, if_neg hinf]

theorem lexicalCast_spec {R : Type} [CDouble R] :
    LexicalCastSpec (lexicalCast : Bytes → Option R) where
  decimal d := by rw [lexicalCast, specialText_decimal, Decimal.scanDecimal_text]
  number {s x} h := by
    rw [lexicalCast] at h
    cases hs : specialText s with
    | some y => exact .special hs
    | none =>
      rw [hs] at h
      dsimp only at h
      split at h
      · rename_i d hd
        have htext := Decimal.text_of_scanDecimal hd
        rw [List.append_nil] at htext
        exact htext ▸ .decimal d
      · cases h
