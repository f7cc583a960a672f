import Mathlib.Data.List.Forall2
import Mathlib.Data.Nat.Digits.Defs
import RegisterMachine.Machine.Heap

/-! What reads as a number. The forms of numerals are given by a grammar: integers in decimal that fit a word,
integers in hexadecimal, and decimal fractions with an exponent. Exactly these are read, though a numeral is
looked at in several ways on the way: its sign is split off and put back, what is behind it goes through a filter
that lets much more pass, and the reader of doubles knows words besides. -/
namespace RegisterMachine
namespace Numeral

/-- What stands in front of a numeral. -/
inductive Sign
  | absent | plus | minus

namespace Sign

def text : Sign → List Char
  | absent => []
  | plus => ['+']
  | minus => ['-']

def isMinus : Sign → Bool
  | minus => true
  | _ => false

def of (sign : Sign) (n : ℕ) : ℤ := if sign.isMinus then -n else n

end Sign

/-- The digits of a base: those up to nine, and from ten on the letters, of either case. -/
def DigitOf (base : ℕ) (c : Char) (d : ℕ) : Prop :=
  d < base ∧ (d < 10 ∧ c.toNat = '0'.toNat + d ∨
    10 ≤ d ∧ d < 36 ∧ (c.toNat + 10 = 'a'.toNat + d ∨ c.toNat + 10 = 'A'.toNat + d))

/-- Some digits in a base, and the number that they make by their positions. -/
def Digits (base : ℕ) (cs : List Char) (n : ℕ) : Prop :=
  cs ≠ [] ∧ ∃ ds, List.Forall₂ (DigitOf base) cs ds ∧ Nat.ofDigits base ds.reverse = n

/-- The text of an integer: a decimal one has the number that it reads as, a hexadecimal one has it modulo 2^64. -/
inductive IsInteger : List Char → Int64 → Prop
  | decimal (sign : Sign) {cs : List Char} {n : ℕ} {i : Int64} (digits : Digits 10 cs n) (fits : i.toInt = sign.of n) :
    IsInteger (sign.text ++ cs) i
  | hexadecimal (sign : Sign) {x : Char} {cs : List Char} {n : ℕ} (mark : x = 'x' ∨ x = 'X') (digits : Digits 16 cs n) :
    IsInteger (sign.text ++ '0' :: x :: cs) (Int64.ofInt (sign.of n))

/-- Digits with or without a point between, before or behind them. -/
inductive Mantissa : List Char → Prop
  | whole {cs : List Char} (digits : ∀ c ∈ cs, c.isDigit) (some : cs ≠ []) : Mantissa cs
  | pointed {cs ds : List Char} (digits : ∀ c ∈ cs ++ ds, c.isDigit) (some : cs ++ ds ≠ []) : Mantissa (cs ++ '.' :: ds)

/-- Nothing, or digits under a sign behind a mark. -/
inductive Exponent : List Char → Prop
  | absent : Exponent []
  | present {e : Char} (sign : Sign) {cs : List Char} (mark : e = 'e' ∨ e = 'E') (digits : ∀ c ∈ cs, c.isDigit)
    (some : cs ≠ []) : Exponent (e :: (sign.text ++ cs))

inductive IsFraction : List Char → Prop
  | mk (sign : Sign) {m e : List Char} (mantissa : Mantissa m) (exponent : Exponent e) :
    IsFraction (sign.text ++ (m ++ e))

theorem append_eq_ofDigits (base : ℕ) (ds : List ℕ) : append base 0 ds = Nat.ofDigits base ds.reverse := by
  rw [Nat.ofDigits_eq_foldr, List.foldr_reverse, append]
  simp only [Nat.add_comm, Nat.mul_comm, Nat.cast_id]

/-- Characters that are digits exactly if they pass a test, with values that a function gives. -/
theorem digits_iff {base : ℕ} {test : Char → Bool} {value : Char → ℕ}
    (h : ∀ c d, DigitOf base c d ↔ test c ∧ value c = d) (cs : List Char) (n : ℕ) :
    Digits base cs n ↔ cs ≠ [] ∧ cs.all test ∧ append base 0 (cs.map value) = n := by
  have values (ds : List ℕ) : List.Forall₂ (DigitOf base) cs ds ↔ cs.all test ∧ cs.map value = ds := by
    induction cs generalizing ds with
    | nil => cases ds <;> simp
    | cons c cs ih =>
      cases ds with
      | nil => simp
      | cons d ds =>
        rw [List.forall₂_cons, h, ih]
        simp [and_assoc, and_left_comm]
  simp only [Digits, values, append_eq_ofDigits, and_assoc, exists_and_left, exists_eq_left']

theorem digitOf_ten_iff (c : Char) (d : ℕ) : DigitOf 10 c d ↔ c.isDigit ∧ c.toNat - '0'.toNat = d := by
  rw [DigitOf, Char.isDigit_iff_toNat]
  simp only [Char.reduceToNat]
  omega

theorem digitOf_sixteen_iff (c : Char) (d : ℕ) : DigitOf 16 c d ↔ isHexDigit c ∧ (digitValue? c).getD 0 = d := by
  have le (a b : Char) : a ≤ b ↔ a.toNat ≤ b.toNat := Iff.rfl
  simp only [DigitOf, isHexDigit, digitValue?, Bool.or_eq_true, Bool.and_eq_true, decide_eq_true_eq,
    Char.isDigit_iff_toNat, le, Char.reduceToNat]
  split
  · rw [Option.getD_some]
    omega
  · split
    · rw [Option.getD_some]
      omega
    · split
      · rw [Option.getD_some]
        omega
      · omega

theorem digits_ten_iff (cs : List Char) (n : ℕ) :
    Digits 10 cs n ↔ cs ≠ [] ∧ cs.all Char.isDigit ∧ decimalValue cs = n := by
  rw [digits_iff digitOf_ten_iff, decimalValue, valueOf_eq_append]

theorem digits_sixteen_iff (cs : List Char) (n : ℕ) :
    Digits 16 cs n ↔ cs ≠ [] ∧ cs.all isHexDigit ∧ append 16 0 (cs.map fun c => (digitValue? c).getD 0) = n :=
  digits_iff digitOf_sixteen_iff cs n

theorem Digits.isDigit {cs : List Char} {n : ℕ} (h : Digits 10 cs n) : ∀ c ∈ cs, c.isDigit :=
  List.all_eq_true.1 ((digits_ten_iff cs n).1 h).2.1

theorem wrap_eq (sign : Sign) (base : ℕ) (ds : List ℕ) :
    wrap sign.isMinus base ds = Int64.ofInt (sign.of (append base 0 ds)) := by
  have fold (n : ℕ) : ds.foldl (fun n d => n * Int64.ofNat base + Int64.ofNat d) (Int64.ofNat n) =
      Int64.ofNat (append base n ds) := by
    induction ds generalizing n with
    | nil => rfl
    | cons d ds ih =>
      rw [List.foldl_cons, ← Int64.ofNat_mul, ← Int64.ofNat_add, ih]
      rfl
  rw [wrap, show (0 : Int64) = Int64.ofNat 0 from rfl, fold, Sign.of]
  cases sign.isMinus
  · exact Int64.ofInt_eq_ofNat.symm
  · simp [Int64.ofInt_neg, Int64.ofInt_eq_ofNat]

/-- Whether a text has no sign in front. -/
def Unsigned (cs : List Char) : Prop := ∀ c ∈ cs.head?, c ≠ '-' ∧ c ≠ '+'

theorem splitSign_of_unsigned {cs : List Char} (h : Unsigned cs) : splitSign cs = (false, cs) := by
  cases cs with
  | nil => rfl
  | cons c cs =>
    have h := h c rfl
    simp [splitSign, h]

theorem splitSign_text (sign : Sign) {cs : List Char} (h : Unsigned cs) :
    splitSign (sign.text ++ cs) = (sign.isMinus, cs) := by
  cases sign with
  | absent => exact splitSign_of_unsigned h
  | plus => rfl
  | minus => rfl

theorem exists_sign (cs : List Char) :
    ∃ sign : Sign, ∃ body, cs = sign.text ++ body ∧ splitSign cs = (sign.isMinus, body) := by
  cases cs with
  | nil => exact ⟨.absent, [], rfl, rfl⟩
  | cons c cs =>
    by_cases minus : c = '-'
    · exact ⟨.minus, cs, by simp [minus, Sign.text], by simp [minus, splitSign, Sign.isMinus]⟩
    · by_cases plus : c = '+'
      · exact ⟨.plus, cs, by simp [plus, Sign.text], by simp [plus, splitSign, Sign.isMinus]⟩
      · refine ⟨.absent, c :: cs, rfl, splitSign_of_unsigned ?_⟩
        rintro _ ⟨⟩
        exact ⟨minus, plus⟩

theorem not_sign {c : Char} (digit : c.isDigit) : c ≠ '-' ∧ c ≠ '+' :=
  ⟨by rintro rfl; contradiction, by rintro rfl; contradiction⟩

theorem Unsigned.of_isDigit {cs : List Char} (h : ∀ c ∈ cs, c.isDigit) : Unsigned cs :=
  fun c head => not_sign (h c (List.mem_of_mem_head? head))

section Spans

variable {test : Char → Bool} {ds cs : List Char}

/-- Whether what is in front of a text, if anything, does not pass a test. -/
def Stops (test : Char → Bool) (cs : List Char) : Prop := ∀ c ∈ cs.head?, ¬test c

theorem takeWhile_of_stops (pass : ∀ c ∈ ds, test c) (stops : Stops test cs) : (ds ++ cs).takeWhile test = ds := by
  rw [List.takeWhile_append_of_pos pass]
  cases cs with
  | nil => simp
  | cons c cs => simp [stops c rfl]

theorem dropWhile_of_stops (pass : ∀ c ∈ ds, test c) (stops : Stops test cs) : (ds ++ cs).dropWhile test = cs := by
  rw [List.dropWhile_append_of_pos pass]
  cases cs with
  | nil => rfl
  | cons c cs => simp [stops c rfl]

theorem exists_span (test : Char → Bool) (cs : List Char) :
    ∃ ds rest, cs = ds ++ rest ∧ (∀ c ∈ ds, test c) ∧ Stops test rest := by
  refine ⟨_, _, (List.takeWhile_append_dropWhile (p := test)).symm, List.all_eq_true.1 List.all_takeWhile, ?_⟩
  intro c head
  have first := List.head?_dropWhile_not test cs
  rw [head] at first
  simp [first]

end Spans

/-- What a text is without the blanks in front of it and behind it. -/
def Trimmed (text cs : List Char) : Prop :=
  ∃ front back, text = front ++ (cs ++ back) ∧ (∀ c ∈ front ++ back, Text.isBlank c) ∧
    Stops Text.isBlank cs ∧ Stops Text.isBlank cs.reverse

theorem trimmed_trim (text : List Char) : Trimmed text (Text.trim text) := by
  obtain ⟨front, body, rfl, blank, stops⟩ := exists_span Text.isBlank text
  obtain ⟨back, rest, eq, blank', stops'⟩ := exists_span Text.isBlank body.reverse
  obtain rfl : body = rest.reverse ++ back.reverse := by
    rw [← List.reverse_append, ← eq, List.reverse_reverse]
  rw [Text.trim, dropWhile_of_stops blank stops, eq, dropWhile_of_stops blank' stops']
  refine ⟨front, back.reverse, rfl, by simpa [or_imp, forall_and] using ⟨blank, blank'⟩, ?_, by simpa using stops'⟩
  intro c head
  exact stops c (by simp [List.head?_append, Option.mem_def.1 head])

theorem trim_of_not_isBlank {cs : List Char} (h : ∀ c ∈ cs, ¬Text.isBlank c) : Text.trim cs = cs := by
  have keep {cs : List Char} (h : ∀ c ∈ cs, ¬Text.isBlank c) : cs.dropWhile Text.isBlank = cs :=
    dropWhile_of_stops (List.forall_mem_nil _) fun c head => h c (List.mem_of_mem_head? head)
  rw [Text.trim, keep h, keep (by simpa using h), List.reverse_reverse]

theorem exponent?_isSome_iff (cs : List Char) :
    (exponent? cs).isSome ↔ ∃ sign : Sign, ∃ ds, cs = sign.text ++ ds ∧ (∀ c ∈ ds, c.isDigit) ∧ ds ≠ [] := by
  have read (sign : Sign) (ds : List Char) (h : splitSign cs = (sign.isMinus, ds)) :
      (exponent? cs).isSome ↔ (∀ c ∈ ds, c.isDigit) ∧ ds ≠ [] := by
    rw [exponent?, h, ← List.all_eq_true]
    cases ds with
    | nil => simp
    | cons d ds => cases digits : (d :: ds).all Char.isDigit <;> simp [digits]
  constructor
  · intro h
    obtain ⟨sign, ds, eq, split⟩ := exists_sign cs
    exact ⟨sign, ds, eq, (read sign ds split).1 h⟩
  · rintro ⟨sign, ds, rfl, digits, some⟩
    exact (read sign ds (splitSign_text sign (.of_isDigit digits))).2 ⟨digits, some⟩

theorem scaled?_isSome_iff (digits : List Char) (places : ℕ) (cs : List Char) :
    (scaled? digits places cs).isSome ↔ Exponent cs := by
  constructor
  · intro h
    cases cs with
    | nil => exact .absent
    | cons c cs =>
      rw [scaled?] at h
      split at h
      · rename_i mark
        rw [Option.isSome_map, exponent?_isSome_iff] at h
        obtain ⟨sign, ds, rfl, digits, some⟩ := h
        exact .present sign (by simpa using mark) digits some
      · contradiction
  · rintro (_ | ⟨sign, mark, digits, some⟩)
    · rfl
    · rw [scaled?, if_pos (by simpa using mark), Option.isSome_map, exponent?_isSome_iff]
      exact ⟨sign, _, rfl, digits, some⟩

theorem Exponent.mark {cs : List Char} (h : Exponent cs) : ∀ c ∈ cs.head?, c = 'e' ∨ c = 'E' := by
  rcases h with _ | ⟨sign, mark, digits, some⟩
  · simp
  · rintro _ ⟨⟩
    exact mark

theorem Exponent.stops {cs : List Char} (h : Exponent cs) : Stops Char.isDigit cs := by
  intro c head
  rcases h.mark c head with rfl | rfl <;> decide

/-- Digits without a point behind them. -/
theorem fraction?_whole {ws r : List Char} (digits : ∀ c ∈ ws, c.isDigit) (stops : Stops Char.isDigit r)
    (pointless : ∀ c ∈ r.head?, c ≠ '.') :
    fraction? (ws ++ r) = if ws = [] then none else scaled? ws 0 r := by
  rw [fraction?, takeWhile_of_stops digits stops, dropWhile_of_stops digits stops]
  cases r with
  | nil => simp
  | cons c r =>
    have := pointless c rfl
    simp [this]

theorem fraction?_pointed {ws ps r : List Char} (digits : ∀ c ∈ ws ++ ps, c.isDigit) (stops : Stops Char.isDigit r) :
    fraction? (ws ++ '.' :: (ps ++ r)) = if ws ++ ps = [] then none else scaled? (ws ++ ps) ps.length r := by
  rw [List.forall_mem_append] at digits
  have point : Stops Char.isDigit ('.' :: (ps ++ r)) := by
    rintro _ ⟨⟩
    decide
  simp [fraction?, takeWhile_of_stops digits.1 point, dropWhile_of_stops digits.1 point,
    takeWhile_of_stops digits.2 stops, dropWhile_of_stops digits.2 stops]

theorem fraction?_isSome_iff (cs : List Char) :
    (fraction? cs).isSome ↔ ∃ m e, cs = m ++ e ∧ Mantissa m ∧ Exponent e := by
  constructor
  · intro h
    obtain ⟨ws, r, rfl, digits, stops⟩ := exists_span Char.isDigit cs
    by_cases point : r.head? = some '.'
    · obtain ⟨r, rfl⟩ := List.head?_eq_some_iff.1 point
      obtain ⟨ps, r, rfl, digits', stops⟩ := exists_span Char.isDigit r
      have digits := List.forall_mem_append.2 ⟨digits, digits'⟩
      rw [fraction?_pointed digits stops] at h
      split at h
      · contradiction
      · exact ⟨ws ++ '.' :: ps, r, by simp, .pointed digits ‹_›, (scaled?_isSome_iff ..).1 h⟩
    · rw [fraction?_whole digits stops fun c head eq => point (eq ▸ head)] at h
      split at h
      · contradiction
      · exact ⟨ws, r, rfl, .whole digits ‹_›, (scaled?_isSome_iff ..).1 h⟩
  · rintro ⟨m, e, rfl, mantissa, exponent⟩
    cases mantissa with
    | whole digits some =>
      have pointless : ∀ c ∈ e.head?, c ≠ '.' := by
        intro c head
        rcases exponent.mark c head with rfl | rfl <;> decide
      rw [fraction?_whole digits exponent.stops pointless, if_neg some, scaled?_isSome_iff]
      exact exponent
    | pointed digits some =>
      rw [List.append_assoc, List.cons_append, fraction?_pointed digits exponent.stops, if_neg some, scaled?_isSome_iff]
      exact exponent

theorem Mantissa.isDigit_or_point {cs : List Char} (h : Mantissa cs) : ∀ c ∈ cs, c.isDigit ∨ c = '.' := by
  cases h with
  | whole digits some => exact fun c mem => .inl (digits c mem)
  | pointed digits some =>
    rw [List.forall_mem_append] at digits
    rw [List.forall_mem_append, List.forall_mem_cons]
    exact ⟨fun c mem => .inl (digits.1 c mem), .inr rfl, fun c mem => .inl (digits.2 c mem)⟩

theorem Mantissa.isDecimal {cs : List Char} (h : Mantissa cs) : ∀ c ∈ cs, isDecimal c := by
  intro c mem
  rcases h.isDigit_or_point c mem with digit | rfl
  · simp [Numeral.isDecimal, digit]
  · rfl

theorem Mantissa.ne_nil {cs : List Char} (h : Mantissa cs) : cs ≠ [] := by
  cases h with
  | whole digits some => exact some
  | pointed => simp

theorem Mantissa.unsigned {cs : List Char} (h : Mantissa cs) (ds : List Char) : Unsigned (cs ++ ds) := by
  rw [Unsigned, List.head?_append_of_ne_nil _ h.ne_nil]
  intro c head
  rcases h.isDigit_or_point c (List.mem_of_mem_head? head) with digit | rfl
  · exact not_sign digit
  · decide

theorem Sign.isDecimal (sign : Sign) : ∀ c ∈ sign.text, isDecimal c := by
  cases sign <;> simp [Sign.text, Numeral.isDecimal]

theorem Exponent.isDecimal {cs : List Char} (h : Exponent cs) : ∀ c ∈ cs, isDecimal c := by
  rcases h with _ | ⟨sign, mark, digits, some⟩
  · simp
  · simp only [List.forall_mem_cons, List.forall_mem_append]
    refine ⟨?_, sign.isDecimal, (Mantissa.whole digits some).isDecimal⟩
    rcases mark with rfl | rfl <;> rfl

theorem hexadecimal?_eq_some_iff (cs hex : List Char) :
    hexadecimal? cs = some hex ↔ ∃ x, (x = 'x' ∨ x = 'X') ∧ cs = '0' :: x :: hex := by
  rw [hexadecimal?.eq_def]
  split <;> simp_all

theorem hexadecimal?_eq_none {cs : List Char} (h : ∀ c ∈ cs, isDecimal c) : hexadecimal? cs = none := by
  rw [Option.eq_none_iff_forall_ne_some]
  intro hex eq
  obtain ⟨x, mark, rfl⟩ := (hexadecimal?_eq_some_iff _ _).1 eq
  have := h x (by simp)
  rcases mark with rfl | rfl <;> contradiction

theorem isDecimal_toLower {c : Char} (h : isDecimal c) : isDecimal c.toLower := by
  simp only [isDecimal, Bool.or_eq_true, beq_iff_eq] at h
  rcases h with ((((h | rfl) | rfl) | rfl) | rfl) | rfl
  · have lower : ¬('A'.val ≤ c.val ∧ c.val ≤ 'Z'.val) := by
      rintro ⟨upper, -⟩
      have le : 'A'.toNat ≤ c.toNat := upper
      rw [Char.isDigit_iff_toNat] at h
      exact absurd (le.trans h.2) (by decide)
    have same : c.toLower = c := dif_neg lower
    simp [same, isDecimal, h]
  all_goals rfl

theorem word?_eq_none (negative : Bool) {cs : List Char} (h : ∀ c ∈ cs, isDecimal c) : word? negative cs = none := by
  have keep {word : List Char} (letter : 'n' ∈ word) : cs.map Char.toLower ≠ word := by
    rintro rfl
    obtain ⟨c, mem, eq⟩ := List.mem_map.1 letter
    have := isDecimal_toLower (h c mem)
    rw [eq] at this
    contradiction
  simp [word?, keep]

section Split

variable {text body : List Char} {sign : Sign} (split : splitSign text = (sign.isMinus, body))
include split

theorem integer?_eq_some_iff (i : Int64) : integer? text = some i ↔ ∃ n, Digits 10 body n ∧ i.toInt = sign.of n := by
  simp only [integer?, split, Option.ite_none_left_eq_some, Checked.fit?_eq_some_iff, digits_ten_iff, Sign.of]
  simp [and_assoc, eq_comm (a := i.toInt)]

theorem double?_isSome_iff (pass : ∀ c ∈ body, isDecimal c) : (double? text).isSome ↔ (fraction? body).isSome := by
  simp only [double?, split, word?_eq_none _ pass]
  cases fraction? body <;> rfl

theorem readText?_hexadecimal {hex : List Char} (h : hexadecimal? body = some hex) (r : Number) :
    readText? text = some r ↔ ∃ n, Digits 16 hex n ∧ r = .int (Int64.ofInt (sign.of n)) := by
  simp only [readText?, split, h, wrap_eq, digits_sixteen_iff]
  simp [and_assoc, eq_comm (a := r)]

theorem readText?_decimal (h : hexadecimal? body = none) :
    readText? text = if body ≠ [] ∧ body.all isDecimal then
      ((integer? text).map .int).or ((double? text).map .float) else none := by
  have whole : (if body.all Char.isDigit then integer? text else none) = integer? text := by
    rw [ite_eq_left_iff]
    intro part
    rw [Eq.comm, Option.eq_none_iff_forall_ne_some]
    intro i eq
    obtain ⟨n, digits, -⟩ := (integer?_eq_some_iff split i).1 eq
    exact part (List.all_eq_true.2 digits.isDigit)
  simp only [readText?, split, h, whole]
  by_cases pass : body ≠ [] ∧ body.all isDecimal
  · rw [if_pos pass, if_neg (by simpa using pass)]
    cases integer? text <;> rfl
  · rw [if_neg pass, if_pos (by simpa [or_iff_not_imp_left] using pass)]

end Split

theorem IsInteger.read {cs : List Char} {i : Int64} (h : IsInteger cs i) : readText? cs = some (.int i) := by
  cases h with
  | @decimal sign cs n i digits fits =>
    have split := splitSign_text sign (.of_isDigit digits.isDigit)
    have pass := (Mantissa.whole digits.isDigit digits.1).isDecimal
    rw [readText?_decimal split (hexadecimal?_eq_none pass), if_pos ⟨digits.1, List.all_eq_true.2 pass⟩,
      (integer?_eq_some_iff split i).2 ⟨n, digits, fits⟩]
    rfl
  | @hexadecimal sign x cs n mark digits =>
    have split : splitSign (sign.text ++ '0' :: x :: cs) = (sign.isMinus, '0' :: x :: cs) :=
      splitSign_text sign (by simp [Unsigned])
    exact (readText?_hexadecimal split ((hexadecimal?_eq_some_iff _ _).2 ⟨x, mark, rfl⟩) _).2 ⟨n, digits, rfl⟩

theorem IsFraction.read {cs : List Char} (h : IsFraction cs) : (readText? cs).isSome := by
  obtain ⟨sign, mantissa, exponent⟩ := h
  rename_i m e
  have split := splitSign_text sign (mantissa.unsigned e)
  have pass := List.forall_mem_append.2 ⟨mantissa.isDecimal, exponent.isDecimal⟩
  have fraction : (double? (sign.text ++ (m ++ e))).isSome := by
    rw [double?_isSome_iff split pass, fraction?_isSome_iff]
    exact ⟨m, e, rfl, mantissa, exponent⟩
  rw [readText?_decimal split (hexadecimal?_eq_none pass),
    if_pos ⟨List.append_ne_nil_of_left_ne_nil mantissa.ne_nil e, List.all_eq_true.2 pass⟩]
  simp [fraction]

theorem isInteger_of_read {cs : List Char} {i : Int64} (h : readText? cs = some (.int i)) : IsInteger cs i := by
  obtain ⟨sign, body, rfl, split⟩ := exists_sign cs
  cases form : hexadecimal? body with
  | some hex =>
    obtain ⟨n, digits, eq⟩ := (readText?_hexadecimal split form _).1 h
    obtain rfl := Number.int.inj eq
    obtain ⟨x, mark, rfl⟩ := (hexadecimal?_eq_some_iff _ _).1 form
    exact .hexadecimal sign mark digits
  | none =>
    have read : integer? (sign.text ++ body) = some i := by
      rw [readText?_decimal split form] at h
      split at h
      · simpa using h
      · contradiction
    obtain ⟨n, digits, fits⟩ := (integer?_eq_some_iff split i).1 read
    exact .decimal sign digits fits

theorem isFraction_of_read {cs : List Char} {x : Binary64} (h : readText? cs = some (.float x)) : IsFraction cs := by
  obtain ⟨sign, body, rfl, split⟩ := exists_sign cs
  cases form : hexadecimal? body with
  | some hex =>
    obtain ⟨n, digits, eq⟩ := (readText?_hexadecimal split form _).1 h
    contradiction
  | none =>
    rw [readText?_decimal split form] at h
    split at h
    · rename_i pass
      have read : (fraction? body).isSome := by
        rw [← double?_isSome_iff split (List.all_eq_true.1 pass.2)]
        simp_all
      obtain ⟨m, e, rfl, mantissa, exponent⟩ := (fraction?_isSome_iff body).1 read
      exact ⟨sign, mantissa, exponent⟩
    · contradiction

theorem digits_repr (n : ℕ) : Digits 10 n.repr.toList n := by
  rw [Nat.toList_repr, digits_ten_iff]
  refine ⟨Nat.toDigits_ne_nil, List.all_eq_true.2 fun c => Nat.isDigit_of_mem_toDigits (by decide) (by decide), ?_⟩
  rw [decimalValue, valueOf_eq_append, append, List.foldl_map]
  simpa only [Nat.ofDigitChars, Nat.mul_comm 10] using Nat.ofDigitChars_ten_toDigits (n := n)

theorem exists_toString (i : Int64) :
    ∃ sign : Sign, ∃ cs n, (toString i.toInt).toList = sign.text ++ cs ∧ Digits 10 cs n ∧ i.toInt = sign.of n := by
  rw [Int.toString_eq_repr, Int.repr_eq_if]
  split
  · rename_i nonneg
    exact ⟨.absent, _, _, rfl, digits_repr _, (Int.toNat_of_nonneg nonneg).symm⟩
  · refine ⟨.minus, _, _, String.toList_append, digits_repr _, ?_⟩
    show i.toInt = -((-i.toInt).toNat : ℤ)
    omega

theorem not_isBlank {c : Char} (h : isDecimal c) : ¬Text.isBlank c := by
  simp only [isDecimal, Bool.or_eq_true, beq_iff_eq] at h
  rcases h with ((((h | rfl) | rfl) | rfl) | rfl) | rfl
  · rw [Char.isDigit_iff_toNat] at h
    have low : 48 ≤ c.toNat := h.1
    have high : c.toNat ≤ 57 := h.2
    simp only [Text.isBlank, Bool.or_eq_true, Bool.and_eq_true, decide_eq_true_eq, beq_iff_eq]
    omega
  all_goals decide

theorem read?_toString (i : Int64) : read? (toString i.toInt) = some (.int i) := by
  obtain ⟨sign, cs, n, eq, digits, fits⟩ := exists_toString i
  have pass := List.forall_mem_append.2 ⟨sign.isDecimal, (Mantissa.whole digits.isDigit digits.1).isDecimal⟩
  rw [read?, eq, trim_of_not_isBlank fun c mem => not_isBlank (pass c mem)]
  exact (IsInteger.decimal sign digits fits).read

/-- A text reads as an integer if it is a decimal one that fits a word or a hexadecimal one, as a double if it is
another decimal fraction, and else not at all. Printed integers read back. -/
theorem numerals_read (s : String) :
    ∃ cs, Trimmed s.toList cs ∧
      (∀ i, read? s = some (.int i) ↔ IsInteger cs i) ∧
      ((∃ x, read? s = some (.float x)) ↔ IsFraction cs ∧ ∀ i, ¬IsInteger cs i) ∧
      (read? s = none ↔ ¬IsFraction cs ∧ ∀ i, ¬IsInteger cs i) ∧
      ∀ (h : Heap) (i : Int64), read? (h.display (.int i)) = some (.int i) := by
  refine ⟨Text.trim s.toList, trimmed_trim _, fun i => ⟨isInteger_of_read, IsInteger.read⟩, ⟨?_, ?_⟩, ⟨?_, ?_⟩,
    fun h i => read?_toString i⟩
  · rintro ⟨x, float⟩
    refine ⟨isFraction_of_read float, fun i integer => ?_⟩
    cases float.symm.trans integer.read
  · rintro ⟨fraction, other⟩
    obtain ⟨i | x, read⟩ := Option.isSome_iff_exists.1 fraction.read
    · exact absurd (isInteger_of_read read) (other i)
    · exact ⟨x, read⟩
  · intro none
    refine ⟨fun fraction => ?_, fun i integer => ?_⟩
    · obtain ⟨r, read⟩ := Option.isSome_iff_exists.1 fraction.read
      cases none.symm.trans read
    · cases none.symm.trans integer.read
  · rintro ⟨part, other⟩
    rw [Option.eq_none_iff_forall_ne_some]
    rintro (i | x) read
    · exact other i (isInteger_of_read read)
    · exact part (isFraction_of_read read)

end Numeral
end RegisterMachine
