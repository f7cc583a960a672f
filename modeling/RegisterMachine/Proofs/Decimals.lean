import RegisterMachine.Proofs.Doubles
import RegisterMachine.Proofs.Numerals

/-! The texts of doubles, read again. Both layouts are digits with a point or without one, and maybe an exponent; the
text that would be digits alone is given a fraction. So a finite double reads as a double, with its sign. -/
namespace RegisterMachine

open Numeral

namespace Binary64

theorem mantissa_joinFraction {whole fraction : List Char} (hw : ∀ c ∈ whole, c.isDigit) (some : whole ≠ [])
    (hf : ∀ c ∈ fraction, c.isDigit) : Mantissa (joinFraction whole fraction) := by
  have kept : ∀ c ∈ (fraction.reverse.dropWhile (· == '0')).reverse, c.isDigit := by
    intro c mem
    rw [List.mem_reverse] at mem
    exact hf c (List.mem_reverse.1 ((List.dropWhile_sublist _).subset mem))
  unfold joinFraction
  split
  · exact .whole hw some
  · exact .pointed (List.forall_mem_append.2 ⟨hw, kept⟩) (List.append_ne_nil_of_left_ne_nil some _)

theorem mantissa_positional {digits : List Char} (e : ℤ) (hd : ∀ c ∈ digits, c.isDigit) (some : digits ≠ []) :
    Mantissa (positional digits e) := by
  unfold positional
  split
  · refine mantissa_joinFraction (fun c mem => hd c (List.mem_of_mem_take mem)) ?_
      fun c mem => hd c (List.mem_of_mem_drop mem)
    simpa using some
  · refine mantissa_joinFraction (List.forall_mem_singleton.2 rfl) (List.cons_ne_nil _ _)
      (List.forall_mem_append.2 ⟨?_, hd⟩)
    intro c mem
    rw [List.eq_of_mem_replicate mem]
    rfl

theorem isDigit_toDigits (n : ℕ) : ∀ c ∈ Nat.toDigits 10 n, c.isDigit :=
  fun _ => Nat.isDigit_of_mem_toDigits (by decide) (by decide)

theorem exponent_exponentText (e : ℤ) : Exponent ('e' :: exponentText e) := by
  have digits : ∀ c ∈ List.replicate (2 - (Nat.toDigits 10 e.natAbs).length) '0' ++ Nat.toDigits 10 e.natAbs,
      c.isDigit := by
    refine List.forall_mem_append.2 ⟨fun c mem => ?_, isDigit_toDigits _⟩
    rw [List.eq_of_mem_replicate mem]
    rfl
  have some := List.append_ne_nil_of_right_ne_nil
    (List.replicate (2 - (Nat.toDigits 10 e.natAbs).length) '0') (Nat.toDigits_ne_nil (n := e.natAbs) (b := 10))
  unfold exponentText
  split
  · exact .present .minus (.inl rfl) digits some
  · exact .present .plus (.inl rfl) digits some

theorem generalText_eq (num den : ℕ) : ∃ m e, generalText num den = m ++ e ∧ Mantissa m ∧ Exponent e := by
  have digits := isDigit_toDigits (scientific num den).1
  unfold generalText
  dsimp only
  split
  · refine ⟨_, _, rfl, mantissa_joinFraction (fun c mem => digits c (List.mem_of_mem_take mem)) ?_
      fun c mem => digits c (List.mem_of_mem_drop mem), exponent_exponentText _⟩
    simp
  · exact ⟨_, [], (List.append_nil _).symm, mantissa_positional _ digits Nat.toDigits_ne_nil, .absent⟩

theorem markFraction_eq {m e : List Char} (mantissa : Mantissa m) (exponent : Exponent e) :
    ∃ m' e', markFraction (m ++ e) = m' ++ e' ∧ Mantissa m' ∧ Exponent e' ∧ ¬(m' ++ e').all Char.isDigit := by
  unfold markFraction
  split
  · rename_i digits
    rw [List.all_eq_true] at digits
    refine ⟨m ++ e ++ ['.', '0'], [], (List.append_nil _).symm, .pointed ?_ ?_, .absent, by simp⟩
    · exact List.forall_mem_append.2 ⟨digits, List.forall_mem_singleton.2 rfl⟩
    · exact List.append_ne_nil_of_right_ne_nil _ (List.cons_ne_nil _ _)
  · rename_i part
    exact ⟨m, e, rfl, mantissa, exponent, part⟩

theorem toText_eq {x : Binary64} (h : x.isFinite) : ∃ sign m e, x.toText.toList = Sign.text sign ++ (m ++ e) ∧
    sign.isMinus = x.isNegative ∧ Mantissa m ∧ Exponent e ∧ ¬(m ++ e).all Char.isDigit := by
  obtain ⟨nan, infinite⟩ := isFinite_iff_not.1 h
  obtain ⟨sign, text, minus⟩ : ∃ sign : Sign,
      (if x.isNegative then "-" else "").toList = sign.text ∧ sign.isMinus = x.isNegative := by
    cases x.isNegative
    · exact ⟨.absent, rfl, rfl⟩
    · exact ⟨.minus, rfl, rfl⟩
  obtain ⟨body, eq, form⟩ : ∃ body : String, x.toText = (if x.isNegative then "-" else "") ++ body ∧
      ∃ m e, body.toList = m ++ e ∧ Mantissa m ∧ Exponent e ∧ ¬(m ++ e).all Char.isDigit := by
    by_cases zero : x.isZero
    · have pointed : Mantissa (['0'] ++ '.' :: ['0']) := .pointed (by simp) (List.cons_ne_nil _ _)
      exact ⟨"0.0", by simp [toText, nan, infinite, zero], _, [], rfl, pointed, .absent, by decide⟩
    · refine ⟨_, by simp only [toText, nan, infinite, zero]; rfl, ?_⟩
      obtain ⟨m, e, general, mantissa, exponent⟩ := generalText_eq x.units one
      rw [general, String.toList_ofList]
      exact markFraction_eq mantissa exponent
  obtain ⟨m, e, split, mantissa, exponent, part⟩ := form
  exact ⟨sign, m, e, by rw [eq, String.toList_append, text, split], minus, mantissa, exponent, part⟩

end Binary64

namespace Numeral

/-- A fraction that is not digits alone reads as the double nearest to it, with its sign. -/
theorem readText?_fraction (sign : Sign) {m e : List Char} (mantissa : Mantissa m) (exponent : Exponent e)
    (part : ¬(m ++ e).all Char.isDigit) :
    ∃ ds scale, readText? (sign.text ++ (m ++ e)) = some (.float (nearest sign.isMinus ds scale)) := by
  have split := splitSign_text sign (mantissa.unsigned e)
  have pass := List.forall_mem_append.2 ⟨mantissa.isDecimal, exponent.isDecimal⟩
  obtain ⟨⟨ds, scale⟩, fraction⟩ :=
    Option.isSome_iff_exists.1 ((fraction?_isSome_iff _).2 ⟨m, e, rfl, mantissa, exponent⟩)
  have double : double? (sign.text ++ (m ++ e)) = some (nearest sign.isMinus ds scale) := by
    simp only [double?, split, fraction]
  have whole : integer? (sign.text ++ (m ++ e)) = none := by
    rw [Option.eq_none_iff_forall_ne_some]
    intro i eq
    obtain ⟨n, digits, -⟩ := (integer?_eq_some_iff split i).1 eq
    exact part (List.all_eq_true.2 digits.isDigit)
  refine ⟨ds, scale, ?_⟩
  rw [readText?_decimal split (hexadecimal?_eq_none pass),
    if_pos ⟨List.append_ne_nil_of_left_ne_nil mantissa.ne_nil e, List.all_eq_true.2 pass⟩, whole, double]
  rfl

theorem nearest_eq (negative : Bool) (digits : List Char) (scale : ℤ) :
    ∃ m ≤ Binary64.infinite, nearest negative digits scale = .ofMagnitude negative m := by
  have ratio (num den : ℕ) : ∃ m ≤ Binary64.infinite, Binary64.nearest negative num den = .ofMagnitude negative m :=
    ⟨_, Nat.min_le_right .., rfl⟩
  unfold nearest
  dsimp only
  split
  · exact ⟨0, Nat.zero_le _, rfl⟩
  · split
    · exact ⟨_, le_rfl, rfl⟩
    · split <;> exact ratio _ _

end Numeral

namespace Binary64

/-- The text of a finite double reads as a double with the same sign, which is no NaN. So it does not read as an
integer, a whole number included, and a negative zero stays one. -/
theorem float_text_reads {x : Binary64} (h : x.isFinite) :
    ∃ y, read? x.toText = some (.float y) ∧ y.isNaN = false ∧ y.isNegative = x.isNegative := by
  obtain ⟨sign, m, e, text, minus, mantissa, exponent, part⟩ := toText_eq h
  obtain ⟨ds, scale, read⟩ := readText?_fraction sign mantissa exponent part
  obtain ⟨magnitude, le, eq⟩ := nearest_eq sign.isMinus ds scale
  have pass : ∀ c ∈ sign.text ++ (m ++ e), isDecimal c :=
    List.forall_mem_append.2 ⟨sign.isDecimal, List.forall_mem_append.2 ⟨mantissa.isDecimal, exponent.isDecimal⟩⟩
  have lt : magnitude < 2 ^ 63 := lt_of_le_of_lt le (by decide)
  refine ⟨Numeral.nearest sign.isMinus ds scale, ?_, ?_, ?_⟩
  · rw [read?, text, trim_of_not_isBlank fun c mem => not_isBlank (pass c mem), read]
  · rw [eq, isNaN, magnitude_ofMagnitude _ lt]
    exact decide_eq_false (Nat.not_lt.2 le)
  · rw [eq, isNegative_ofMagnitude _ lt, minus]

/-- Negative zero. -/
theorem float_text_reads_negative_zero :
    ∃ y, read? (toText ⟨0x8000000000000000⟩) = some (.float y) ∧ y.isNaN = false ∧ y.isNegative = true :=
  float_text_reads (x := ⟨0x8000000000000000⟩) rfl

end Binary64
end RegisterMachine
