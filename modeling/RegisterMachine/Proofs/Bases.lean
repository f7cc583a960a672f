import RegisterMachine.Library.Base
import RegisterMachine.Proofs.Numerals

/-! Integers in a base. The text is put into lower case before its digits are looked at. One character behind ASCII has
a letter of ASCII for its small letter, the Kelvin sign, and it counts as a k. For all other texts it makes no difference:
exactly the numerals of the base are read. -/
namespace RegisterMachine

namespace Text

/-- The sign of the unit of temperature, a capital whose small letter is that of K. -/
def kelvin : Char := '\u212a'

def plain (c : Char) : Char := if c = kelvin then 'K' else c

theorem Capitals.target_valid : ∀ run ∈ runs, run = ⟨0x212a, 0x212a, 1, -8383⟩ ∨ 0x80 ≤ run.first + run.offset ∧
    (run.last + run.offset < 0xd800 ∨ 0xdfff < run.first + run.offset ∧ run.last + run.offset < 0x110000) := by
  decide +kernel

theorem toNat_ofNat_of_valid {n : ℕ} (valid : n.isValidChar) : (Char.ofNat n).toNat = n := by
  rw [Char.ofNat, dif_pos valid]
  rfl

theorem lowerPoint_valid {n : ℕ} (valid : n.isValidChar) (high : 0x80 ≤ n) (other : n ≠ 0x212a) :
    0x80 ≤ lowerPoint n ∧ (lowerPoint n).isValidChar := by
  unfold lowerPoint
  split
  · rename_i run found
    have inside := List.find?_some found
    simp only [Capitals.contains, Bool.and_eq_true, decide_eq_true_eq] at inside
    rcases Capitals.target_valid run (List.mem_of_find?_eq_some found) with rfl | target
    · dsimp only at inside
      omega
    · rw [Nat.isValidChar]
      omega
  · exact ⟨high, valid⟩

theorem lowercase_cases (c : Char) : c.toNat < 0x80 ∧ lowercase c = [c.toLower] ∨ c = kelvin ∧ lowercase c = ['k'] ∨
    0x80 ≤ c.toNat ∧ c ≠ kelvin ∧ ∃ front x, lowercase c = front ++ [x] ∧ 0x80 ≤ x.toNat ∧ (front = [] ∨ front = ['i']) := by
  by_cases low : c.toNat < 0x80
  · exact .inl ⟨low, if_pos low⟩
  by_cases eq : c = kelvin
  · subst eq
    exact .inr (.inl ⟨rfl, by decide +kernel⟩)
  have high := Nat.le_of_not_lt low
  refine .inr (.inr ⟨high, eq, ?_⟩)
  by_cases dotted : c.toNat = 0x130
  · exact ⟨['i'], _, by rw [lowercase, if_neg low, if_pos dotted]; rfl, by decide, .inr rfl⟩
  · have other : c.toNat ≠ 0x212a := fun same => eq (Char.toNat_inj.1 same)
    obtain ⟨above, valid⟩ := lowerPoint_valid (show c.toNat.isValidChar from c.valid) high other
    refine ⟨[], Char.ofNat (lowerPoint c.toNat), by rw [lowercase, if_neg low, if_neg dotted]; rfl, ?_, .inl rfl⟩
    rwa [toNat_ofNat_of_valid valid]

end Text

namespace Numeral

open Text

theorem digitOf?_eq_some_iff {base : ℕ} (c : Char) (d : ℕ) : digitOf? base c = some d ↔ DigitOf base c d := by
  have le (a b : Char) : a ≤ b ↔ a.toNat ≤ b.toNat := Iff.rfl
  simp only [digitOf?, Option.filter_eq_some_iff, DigitOf, digitValue?, Bool.and_eq_true, decide_eq_true_eq, le,
    Char.reduceToNat]
  split
  · simp only [Option.some.injEq]
    omega
  · split
    · simp only [Option.some.injEq]
      omega
    · split
      · simp only [Option.some.injEq]
        omega
      · simp only [reduceCtorEq, false_and, false_iff]
        omega

variable {base : ℕ}

theorem DigitOf.low {c : Char} {d : ℕ} (h : DigitOf base c d) : c.toNat < 0x80 := by
  simp only [DigitOf, Char.reduceToNat] at h
  omega

theorem digitOf_toLower {c : Char} (low : c.toNat < 0x80) (d : ℕ) : DigitOf base c.toLower d ↔ DigitOf base c d := by
  have value : ∀ n < 0x80, digitValue? (Char.ofNat n).toLower = digitValue? (Char.ofNat n) := by decide +kernel
  have value := value c.toNat low
  rw [Char.ofNat_toNat] at value
  rw [← digitOf?_eq_some_iff, ← digitOf?_eq_some_iff, digitOf?, digitOf?, value]

theorem digitOf_kelvin (d : ℕ) : DigitOf base 'k' d ↔ DigitOf base (plain kelvin) d := by
  rw [← digitOf?_eq_some_iff, ← digitOf?_eq_some_iff]
  rfl

theorem forall₂_toLower (cs : List Char) (ds : List ℕ) :
    List.Forall₂ (DigitOf base) (toLower cs) ds ↔ List.Forall₂ (DigitOf base) (cs.map plain) ds := by
  induction cs generalizing ds with
  | nil => rfl
  | cons c cs ih =>
    rw [toLower, List.flatMap_cons, ← toLower, List.map_cons, List.forall₂_cons_left_iff]
    simp only [← ih]
    rcases lowercase_cases c with ⟨low, eq⟩ | ⟨rfl, eq⟩ | ⟨high, other, front, x, eq, above, shape⟩
    · have same : plain c = c := if_neg (by rintro rfl; exact absurd low (by decide))
      simp only [eq, same, List.singleton_append, List.forall₂_cons_left_iff, digitOf_toLower low]
    · simp only [eq, List.singleton_append, List.forall₂_cons_left_iff, digitOf_kelvin]
    · have none (d : ℕ) : ¬DigitOf base x d := fun digit => absurd digit.low (Nat.not_lt.2 above)
      have none' (d : ℕ) : ¬DigitOf base (plain c) d := by
        rw [plain, if_neg other]
        exact fun digit => absurd digit.low (Nat.not_lt.2 high)
      rcases shape with rfl | rfl <;> simp [eq, List.forall₂_cons_left_iff, none, none']

theorem mapM_digitOf? (cs : List Char) (ds : List ℕ) :
    cs.mapM (digitOf? base) = some ds ↔ List.Forall₂ (DigitOf base) cs ds := by
  induction cs generalizing ds with
  | nil => simp
  | cons c cs ih =>
    simp only [List.mapM_cons, List.forall₂_cons_left_iff, ← ih, ← digitOf?_eq_some_iff]
    simp [Option.bind_eq_some_iff, eq_comm (a := ds)]

/-- The text of an integer in a base: digits, behind a minus sign maybe. It stands for its number modulo 2^64. -/
inductive IsInBase (base : ℕ) : List Char → Int64 → Prop
  | positive {cs : List Char} {n : ℕ} (digits : Digits base cs n) : IsInBase base cs (Int64.ofInt n)
  | negative {cs : List Char} {n : ℕ} (digits : Digits base cs n) : IsInBase base ('-' :: cs) (Int64.ofInt (-n))

theorem splitMinus_of_ne {cs : List Char} (h : ∀ c ∈ cs.head?, c ≠ '-') : splitMinus cs = (false, cs) := by
  unfold splitMinus
  split
  · exact absurd rfl (h _ rfl)
  · rfl

theorem Digits.exists_digitOf {cs : List Char} {n : ℕ} (h : Digits base cs n) : ∀ c ∈ cs, ∃ d, DigitOf base c d := by
  obtain ⟨-, ds, all, -⟩ := h
  induction all with
  | nil => simp
  | cons digit _ ih => exact List.forall_mem_cons.2 ⟨⟨_, digit⟩, ih⟩

theorem Digits.unsigned {cs : List Char} {n : ℕ} (h : Digits base cs n) : ∀ c ∈ cs.head?, c ≠ '-' := by
  rintro c head rfl
  obtain ⟨d, digit⟩ := h.exists_digitOf _ (List.mem_of_mem_head? head)
  simp only [DigitOf, Char.reduceToNat] at digit
  omega

theorem IsInBase.minus_or_digit {cs : List Char} {i : Int64} (h : IsInBase base cs i) :
    ∀ c ∈ cs, c = '-' ∨ ∃ d, DigitOf base c d := by
  cases h with
  | positive digits => exact fun c mem => .inr (digits.exists_digitOf c mem)
  | negative digits => exact List.forall_mem_cons.2 ⟨.inl rfl, fun c mem => .inr (digits.exists_digitOf c mem)⟩

theorem IsInBase.split {cs : List Char} {i : Int64} (h : IsInBase base cs i) :
    ∃ n, Digits base (splitMinus cs).2 n ∧ Int64.ofInt (if (splitMinus cs).1 then -n else n) = i := by
  cases h with
  | positive digits =>
    rw [splitMinus_of_ne digits.unsigned]
    exact ⟨_, digits, rfl⟩
  | negative digits => exact ⟨_, digits, rfl⟩

theorem exists_lowercase (c : Char) : ∃ d rest, lowercase c = d :: rest ∧ (d = '-' ↔ c = '-') := by
  have keep : ∀ n < 0x80, (Char.ofNat n).toLower = '-' ↔ Char.ofNat n = '-' := by decide +kernel
  have other {c : Char} (high : 0x80 ≤ c.toNat) : c ≠ '-' := by
    rintro rfl
    exact absurd high (by decide)
  rcases lowercase_cases c with ⟨low, eq⟩ | ⟨rfl, eq⟩ | ⟨high, -, front, x, eq, above, rfl | rfl⟩
  · refine ⟨_, _, eq, ?_⟩
    rw [← Char.ofNat_toNat c]
    exact keep c.toNat low
  · exact ⟨_, _, eq, by decide⟩
  · exact ⟨_, _, eq, by simp [other high, other above]⟩
  · exact ⟨_, _, eq, by simp [other high]⟩

theorem toLower_ne_nil {cs : List Char} (h : cs ≠ []) : toLower cs ≠ [] := by
  obtain ⟨c, cs, rfl⟩ := List.exists_cons_of_ne_nil h
  obtain ⟨d, rest, eq, -⟩ := exists_lowercase c
  simp [toLower, eq]

/-- What is read behind the sign. -/
theorem read_digits_iff (negative : Bool) (body : List Char) (i : Int64) :
    (if (toLower body).isEmpty then none else ((toLower body).mapM (digitOf? base)).map (wrap negative base)) = some i ↔
      ∃ n, Digits base (body.map plain) n ∧ Int64.ofInt (if negative then -n else n) = i := by
  by_cases nil : body = []
  · subst nil
    simp [toLower, Digits]
  have value (ds : List ℕ) :
      wrap negative base ds = Int64.ofInt (if negative then -(append base 0 ds : ℕ) else (append base 0 ds : ℕ)) := by
    cases negative with
    | false => exact wrap_eq .absent base ds
    | true => exact wrap_eq .minus base ds
  rw [if_neg (by simpa using toLower_ne_nil nil)]
  simp [Option.map_eq_some_iff, mapM_digitOf?, forall₂_toLower, value, Digits, append_eq_ofDigits, nil]

theorem inBase?_eq_some_iff (s : String) (i : Int64) :
    inBase? base s = some i ↔ IsInBase base ((Text.trim s.toList).map plain) i := by
  unfold inBase?
  generalize Text.trim s.toList = cs
  have minus (c : Char) : plain c = '-' ↔ c = '-' := by
    unfold plain
    split
    · simp_all [kelvin]
    · rfl
  by_cases head : ∃ rest, cs = '-' :: rest
  · obtain ⟨rest, rfl⟩ := head
    refine (read_digits_iff true rest i).trans ⟨?_, IsInBase.split⟩
    rintro ⟨n, digits, rfl⟩
    exact .negative digits
  · have unsigned : ∀ c ∈ cs.head?, c ≠ '-' := by
      rintro c first rfl
      exact head (List.head?_eq_some_iff.1 first)
    have lower : splitMinus (toLower cs) = (false, toLower cs) := by
      refine splitMinus_of_ne ?_
      cases cs with
      | nil => simp [toLower]
      | cons c cs =>
        obtain ⟨d, rest, eq, same⟩ := exists_lowercase c
        simpa [toLower, eq, same] using unsigned c rfl
    have letters : splitMinus (cs.map plain) = (false, cs.map plain) :=
      splitMinus_of_ne (by simpa [minus] using unsigned)
    rw [lower]
    refine (read_digits_iff false cs i).trans ⟨?_, fun h => ?_⟩
    · rintro ⟨n, digits, rfl⟩
      exact .positive digits
    · obtain ⟨n, digits, eq⟩ := h.split
      rw [letters] at digits eq
      exact ⟨n, digits, eq⟩

theorem IsInBase.kelvin_not_mem {cs : List Char} {i : Int64} (h : IsInBase base cs i) : kelvin ∉ cs := by
  intro mem
  obtain minus | ⟨d, digit⟩ := h.minus_or_digit _ mem
  · exact absurd minus (by decide)
  · exact absurd digit.low (by decide)

theorem isInBase_plain_iff {cs : List Char} (h : base ≤ 20 ∨ kelvin ∉ cs) (i : Int64) :
    IsInBase base (cs.map plain) i ↔ IsInBase base cs i := by
  by_cases mem : kelvin ∈ cs
  · refine iff_of_false (fun read => ?_) fun read => read.kelvin_not_mem mem
    obtain minus | ⟨d, digit⟩ := read.minus_or_digit _ (List.mem_map_of_mem mem)
    · exact absurd minus (by decide)
    · have low := h.resolve_right (not_not_intro mem)
      simp only [plain, if_true, DigitOf, Char.reduceToNat] at digit
      omega
  · have same : cs.map plain = cs := by
      conv_rhs => rw [← List.map_id cs]
      exact List.map_congr_left fun c inside => if_neg (by rintro rfl; exact mem inside)
    rw [same]

end Numeral

namespace Library

open Numeral Text

theorem tonumber_eq (s : String) (rest : List Value) {v : Value} {base : ℕ} (hv : v.toInt64? = some (Int64.ofNat base))
    (low : 2 ≤ base) (high : base ≤ 36) :
    tonumber (.str s :: v :: rest) = .done [match inBase? base s with
      | some i => .int i
      | none => .nil] := by
  have given : (Arguments.get (.str s :: v :: rest) 2).isNil = false := by
    cases v <;> first | rfl | cases hv
  have checked : Arguments.integer (.str s :: v :: rest) 2 "tonumber" = .ok (Int64.ofNat base) := by
    obtain ⟨x, number, whole⟩ := Option.bind_eq_some_iff.1 hv
    simp [Arguments.integer, Arguments.get?, number, whole]
  have toInt : (Int64.ofNat base).toInt = base := Int64.toInt_ofNat_of_lt (by omega)
  have inside : (decide (Int64.ofNat base < 2) || decide (36 < Int64.ofNat base)) = false := by
    have bounds (a b : Int64) : a < b ↔ a.toInt < b.toInt := Int64.lt_iff_toInt_lt
    simp only [bounds, toInt, Bool.or_eq_false_iff, decide_eq_false_iff_not]
    exact ⟨Int.not_lt.2 (Int.ofNat_le.2 low), Int.not_lt.2 (Int.ofNat_le.2 high)⟩
  unfold tonumber
  simp only [given, checked, Bool.false_eq_true, if_false]
  show (if (decide (Int64.ofNat base < 2) || decide (36 < Int64.ofNat base)) = true then _ else
    Script.done [match inBase? (Int64.ofNat base).toInt.toNat s with
      | some i => Value.int i
      | none => .nil]) = _
  rw [inside, toInt]
  rfl

/-- With a base from 2 to 36, digits of the base are read, behind a minus sign maybe, modulo 2^64, and nothing else is.
A Kelvin sign counts as a K, which above base 20 is a digit. -/
theorem tonumber_reads_base (s : String) (rest : List Value) {v : Value} {base : ℕ}
    (hv : v.toInt64? = some (Int64.ofNat base)) (low : 2 ≤ base) (high : base ≤ 36) :
    ∃ cs, Trimmed s.toList cs ∧
      (∀ i, tonumber (.str s :: v :: rest) = .done [.int i] ↔ IsInBase base (cs.map plain) i) ∧
      (tonumber (.str s :: v :: rest) = .done [.nil] ↔ ∀ i, ¬IsInBase base (cs.map plain) i) ∧
      (base ≤ 20 ∨ kelvin ∉ cs → ∀ i, IsInBase base (cs.map plain) i ↔ IsInBase base cs i) := by
  refine ⟨Text.trim s.toList, trimmed_trim _, ?_, ?_, isInBase_plain_iff⟩
  all_goals
    rw [tonumber_eq s rest hv low high]
    simp only [← inBase?_eq_some_iff]
    cases inBase? base s <;> simp

/-- Letters of either case as digits, behind a minus sign and between blanks, in a base that is given as a text. -/
theorem tonumber_reads_base_letters :
    ∃ cs, Trimmed " -zZ ".toList cs ∧ IsInBase 36 (cs.map plain) (-1295) := by
  have base : (Value.str "0x24").toInt64? = some (Int64.ofNat 36) := by decide +kernel
  obtain ⟨cs, trimmed, read, -⟩ := tonumber_reads_base " -zZ " [] base (by decide) (by decide)
  refine ⟨cs, trimmed, (read _).1 ?_⟩
  rw [tonumber_eq " -zZ " [] base (by decide) (by decide)]
  have number : inBase? 36 " -zZ " = some (-1295) := by decide +kernel
  rw [number]

/-- A Kelvin sign alone is no numeral of base 36, and is read as 20. -/
theorem tonumber_kelvin : tonumber [.str "\u212a", .int 36] = .done [.int 20] ∧
    ∀ cs, Trimmed "\u212a".toList cs → ∀ i, ¬IsInBase 36 cs i := by
  constructor
  · have base : (Value.int 36).toInt64? = some (Int64.ofNat 36) := rfl
    rw [tonumber_eq "\u212a" [] base (by decide) (by decide)]
    have number : inBase? 36 "\u212a" = some 20 := by decide +kernel
    rw [number]
  · rintro cs ⟨front, back, eq, -⟩ i read
    have only : ∀ c ∈ cs, c = kelvin := by
      intro c mem
      have mem : c ∈ "\u212a".toList := by
        rw [eq]
        simp [mem]
      simpa [kelvin] using mem
    obtain ⟨c, mem⟩ : ∃ c, c ∈ cs := by
      cases read with
      | positive digits => exact List.exists_mem_of_ne_nil _ digits.1
      | negative => exact ⟨_, List.mem_cons_self⟩
    exact read.kelvin_not_mem (only c mem ▸ mem)

end Library
end RegisterMachine
