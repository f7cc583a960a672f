import RegisterMachine.Proofs.Comparisons
import RegisterMachine.Proofs.Traversal

/-! When two values are the same key. Raw equality compares numbers by what they stand for, keys take whole doubles
as integers, and a lookup goes by a hash and by raw equality, with rules of its own for numbers. All divide the values
that can be keys alike. -/
namespace RegisterMachine

namespace Binary64

variable {x y : Binary64}

theorem toNat_bits (x : Binary64) : x.bits.toNat = (if x.isNegative then 2 ^ 63 else 0) + x.magnitude := by
  have bound := x.bits.toNat_lt
  have sign : x.isNegative = true ↔ 2 ^ 63 ≤ x.bits.toNat := decide_eq_true_iff.trans UInt64.le_iff_toNat_le
  simp only [magnitude_eq, sign]
  split <;> omega

theorem eq_of_rank_eq (h : x.rank = y.rank) (nonzero : x.rank ≠ 0) : x = y := by
  have bits : x.bits.toNat = y.bits.toNat := by
    rw [toNat_bits, toNat_bits]
    simp only [rank] at h nonzero
    cases hx : x.isNegative <;> cases hy : y.isNegative <;>
      simp only [hx, hy, Bool.false_eq_true, if_true, if_false] at h nonzero ⊢ <;> omega
  obtain ⟨bits⟩ := x
  obtain ⟨bits'⟩ := y
  exact congrArg mk (UInt64.toNat_inj.1 bits)

theorem toInt64?_of_rank_eq_zero (h : x.rank = 0) : x.toInt64? = some 0 := by
  have units : x.signedUnits = zero.signedUnits := (rank_inj x zero).1 (h.trans (by decide))
  have finite : x.isFinite := by
    rw [isFinite, (rank_eq_zero_iff x).1 h]
    decide
  refine toInt64?_eq_some_iff.2 ⟨finite, units.trans ?_⟩
  rw [Int64.toInt_zero, zero_mul]
  decide

end Binary64

namespace Number

theorem eq_of_scaled_eq {m n : Number} (hm : (Value.ofNumber m).isKey = true) (hn : (Value.ofNumber n).isKey = true)
    (h : m.scaled = n.scaled) : m = n := by
  have apart {x : Binary64} {i : Int64} (hx : (Value.float x).isKey = true) : (float x).scaled ≠ (int i).scaled := by
    intro h
    simp only [Value.isKey, Bool.and_eq_true, Bool.not_eq_true', Option.isNone_iff_eq_none] at hx
    have whole := (toInt64?_beq_iff x i).2 ⟨hx.1, h⟩
    simp [hx.2] at whole
  cases m with
  | int i =>
    cases n with
    | int j => exact congrArg int (Int64.toInt_inj.1 ((mul_left_inj' Binary64.one_posInt.ne').1 h))
    | float y => exact absurd h.symm (apart hn)
  | float x =>
    cases n with
    | int j => exact absurd h (apart hm)
    | float y =>
      -- the zeros, which are two, are no keys as they stand
      refine congrArg float (Binary64.eq_of_rank_eq ((Binary64.rank_inj x y).2 h) fun zero => ?_)
      simp [Value.ofNumber, Value.isKey, Binary64.toInt64?_of_rank_eq_zero zero] at hm

end Number

namespace Key

variable {x : Binary64}

theorem ofValue_whole {i : Int64} (h : x.toInt64? = some i) : ofValue (.float x) = .ok (ofInt i) := by
  rw [ofValue]
  split <;> simp_all

theorem ofValue_other (h : x.toInt64? = none) (hn : ¬x.isNaN = true) :
    ofValue (.float x) = .ok ⟨.float x, by simp [Value.isKey, h, hn]⟩ := by
  rw [ofValue]
  split <;> simp_all

end Key

namespace Value

/-- Every value but nil and the NaNs. -/
structure CanBeKey (v : Value) : Prop where
  ne_nil : v ≠ .nil
  not_nan : ∀ x, v = .float x → x.isNaN = false

variable {a b : Value} {k l : Key}

theorem CanBeKey.exists_key (h : a.CanBeKey) : ∃ k, Key.ofValue a = .ok k := by
  cases hk : Key.ofValue a with
  | ok k => exact ⟨k, rfl⟩
  | error f =>
    obtain ⟨eq, -⟩ | ⟨x, eq, nan, -⟩ := Key.ofValue_eq_error_iff.1 hk
    · exact absurd eq h.ne_nil
    · exact absurd nan (Bool.eq_false_iff.1 (h.not_nan x eq))

/-- A key is the value itself, or for a number one that stands for the same. -/
theorem key_cases (h : Key.ofValue a = .ok k) :
    (a.isNumber = false ∧ k.value = a) ∨
    ∃ m n : Number, a = .ofNumber m ∧ m.isNaN = false ∧ k.value = .ofNumber n ∧ n.scaled = m.scaled := by
  cases a with
  | nil => cases h
  | int i =>
    cases h
    exact .inr ⟨.int i, .int i, rfl, rfl, rfl, rfl⟩
  | float x =>
    cases whole : x.toInt64? with
    | some i =>
      rw [Key.ofValue_whole whole] at h
      cases h
      obtain ⟨finite, units⟩ := Binary64.toInt64?_eq_some_iff.1 whole
      exact .inr ⟨.float x, .int i, rfl, Binary64.isNaN_of_isFinite finite, rfl, units.symm⟩
    | none =>
      by_cases nan : x.isNaN
      · rw [Key.ofValue_eq_error_iff.2 (.inr ⟨x, rfl, nan, rfl⟩)] at h
        cases h
      · rw [Key.ofValue_other whole nan] at h
        cases h
        exact .inr ⟨.float x, .float x, rfl, Bool.eq_false_of_not_eq_true nan, rfl, rfl⟩
  | _ =>
    cases h
    exact .inl ⟨rfl, rfl⟩

theorem rawEqual_of_not_number (h : a.isNumber = false) (b : Value) : a.rawEqual b = true ↔ a = b := by
  cases a with
  | int | float => cases h
  | _ => cases b <;> simp [rawEqual]

theorem isNumber_ofNumber (n : Number) : (ofNumber n).isNumber = true := by
  cases n <;> rfl

theorem rawEqual_number (h : b.isNumber = false) (n : Number) : (ofNumber n).rawEqual b = false := by
  cases b with
  | int | float => cases h
  | _ => cases n <;> rfl

theorem rawEqual_iff_key (ha : Key.ofValue a = .ok k) (hb : Key.ofValue b = .ok l) :
    a.rawEqual b = true ↔ k = l := by
  obtain ⟨plain, eq⟩ | ⟨m, n, rfl, hm, eq, same⟩ := key_cases ha <;>
    obtain ⟨plain', eq'⟩ | ⟨m', n', rfl, hm', eq', same'⟩ := key_cases hb
  · rw [rawEqual_of_not_number plain, ← eq, ← eq']
    exact ⟨Key.ext_value, congrArg Key.value⟩
  -- a number, and nothing else, has a number for its key
  · rw [rawEqual_of_not_number plain]
    refine iff_of_false (fun h => ?_) fun h => ?_
    · simp [h, isNumber_ofNumber] at plain
    · rw [← eq, h, eq', isNumber_ofNumber] at plain
      cases plain
  · rw [rawEqual_number plain']
    refine iff_of_false Bool.false_ne_true fun h => ?_
    rw [← eq', ← h, eq, isNumber_ofNumber] at plain'
    cases plain'
  · rw [Number.rawEqual_iff, and_iff_right hm, and_iff_right hm', ← same, ← same']
    constructor
    · intro h
      have hk := eq ▸ k.isKey
      have hl := eq' ▸ l.isKey
      exact Key.ext_value (by rw [eq, eq', Number.eq_of_scaled_eq hk hl h])
    · rintro rfl
      have h := eq.symm.trans eq'
      cases n <;> cases n' <;> cases h <;> rfl

theorem rawEqual_key_iff : k.value.rawEqual l.value = true ↔ k = l :=
  rawEqual_iff_key (Key.ofValue_value k) (Key.ofValue_value l)

end Value

/-- What a value is hashed by: its kind, with its content or the address of the object. -/
inductive Fingerprint
  | nil
  | bool (b : Bool)
  | int (i : Int64)
  | float (bits : UInt64)
  | str (s : String)
  | object (address : Nat)
  deriving DecidableEq

def Value.fingerprint : Value → Fingerprint
  | .nil => .nil
  | .bool b => .bool b
  | .int i => .int i
  | .float x => .float x.bits
  | .str s => .str s
  | v => .object v.address

theorem Value.fingerprint_inj {v w : Value} : v.fingerprint = w.fingerprint ↔ v = w := by
  refine ⟨fun h => ?_, congrArg fingerprint⟩
  cases v <;> cases w <;>
    simp only [fingerprint, address, reduceCtorEq, Fingerprint.bool.injEq, Fingerprint.int.injEq,
      Fingerprint.float.injEq, Fingerprint.str.injEq, Fingerprint.object.injEq] at h
  case nil.nil => rfl
  case bool.bool | int.int | str.str => rw [h]
  case float.float => exact congrArg float (congrArg Binary64.mk h)
  case table.table r q | closure.closure r q | native.native r q | coroutine.coroutine r q | file.file r q =>
    have same : r.index = q.index := by omega
    obtain ⟨i⟩ := r
    obtain ⟨j⟩ := q
    obtain rfl : i = j := same
    rfl
  all_goals omega

section

variable (hash : Fingerprint → UInt64)

/-- Whether an entry is found when a value is looked up: the hashes are equal, and the values then compare as raw
equal. -/
def Entry.meets (e : Entry) (v : Value) : Bool :=
  hash e.key.value.fingerprint == hash v.fingerprint && e.key.value.rawEqual v

def Entries.probe? (es : Entries) (v : Value) : Option Nat := es.toArray.findIdx? (·.meets hash v)

def Entries.probe (es : Entries) (v : Value) : Value :=
  match es.probe? hash v with
  | some n => es.valueAt n
  | none => .nil

namespace Table

def probeInt (t : Table) (i : Int64) : Value :=
  match t.slot? i with
  | some n => t.items.getD n .nil
  | none => t.entries.probe hash (.int i)

/-- A read that looks the value itself up, but for whole doubles and for what is no key. -/
def probe (t : Table) : Value → Value
  | .nil => .nil
  | .int i => t.probeInt hash i
  | .float x =>
    match x.toInt64? with
    | some i => t.probeInt hash i
    | none => if x.isNaN then .nil else t.entries.probe hash (.float x)
  | v => t.entries.probe hash v

end Table

theorem Entries.probe?_key (es : Entries) (k : Key) : es.probe? hash k.value = es.position? k := by
  rw [position?_eq_findKey?, probe?, findKey?]
  congr 1
  funext e
  rw [Bool.eq_iff_iff, decide_eq_true_eq, Entry.meets, Bool.and_eq_true, Value.rawEqual_key_iff]
  refine ⟨And.right, fun h => ⟨?_, h⟩⟩
  rw [h, beq_self_eq_true]

theorem Entries.probe_key (es : Entries) (k : Key) : es.probe hash k.value = es.get k := by
  have place := es.probe?_key hash k
  cases found : es.position? k with
  | none => simp only [probe, get, place, found]
  | some n => simp only [probe, get, place, found]

theorem Table.probeInt_eq_getInt (t : Table) (i : Int64) : t.probeInt hash i = t.getInt i := by
  rw [probeInt, getInt, ← Entries.probe_key hash]
  rfl

theorem Table.probe_eq_get (t : Table) (v : Value) : t.probe hash v = t.get v := by
  cases v with
  | nil => rfl
  | int i => exact t.probeInt_eq_getInt hash i
  | float x =>
    rw [probe, get]
    split
    · rename_i i whole
      rw [t.probeInt_eq_getInt hash, Key.ofValue_whole whole]
      rfl
    · rename_i none
      split
      · rename_i nan
        rw [Key.ofValue_eq_error_iff.2 (.inr ⟨x, rfl, nan, rfl⟩)]
      · rename_i other
        rw [Key.ofValue_other none other]
        exact t.entries.probe_key hash ⟨.float x, _⟩
  | _ => exact t.entries.probe_key hash ⟨_, rfl⟩

end

namespace Value

variable {a b : Value}

theorem rawEqual_equivalence : Equivalence fun v w : { v : Value // v.CanBeKey } => v.1.rawEqual w.1 = true := by
  have same_key (v w : { v : Value // v.CanBeKey }) :
      v.1.rawEqual w.1 = true ↔ Key.ofValue v.1 = Key.ofValue w.1 := by
    obtain ⟨k, hk⟩ := v.2.exists_key
    obtain ⟨l, hl⟩ := w.2.exists_key
    rw [rawEqual_iff_key hk hl, hk, hl, Except.ok.injEq]
  refine ⟨fun v => ?_, fun {v w} h => ?_, fun {u v w} h h' => ?_⟩
  · rw [same_key]
  · rw [same_key] at h ⊢
    exact h.symm
  · rw [same_key] at h h' ⊢
    exact h.trans h'

/-- Raw equality of values that have a key is equality of the keys; equal keys are hashed alike, and a table takes raw
equal values for one key, in reads and in assignments. -/
theorem rawEqual_canonical (ha : a.CanBeKey) (hb : b.CanBeKey) :
    (∃ k l, Key.ofValue a = .ok k ∧ Key.ofValue b = .ok l ∧ (a.rawEqual b = true ↔ k = l) ∧
      (k.value.rawEqual l.value = true ↔ k = l) ∧ (k.value.fingerprint = l.value.fingerprint ↔ k = l)) ∧
    (Equivalence fun v w : { v : Value // v.CanBeKey } => v.1.rawEqual w.1 = true) ∧
    ∀ t : Table, (∀ hash v, t.probe hash v = t.get v) ∧
      (∀ hash (k : Key), t.entries.probe? hash k.value = t.entries.position? k) ∧
      (a.rawEqual b = true →
        t.get a = t.get b ∧ (∀ hash, t.probe hash a = t.probe hash b) ∧ ∀ v, t.set a v = t.set b v) := by
  obtain ⟨k, hk⟩ := ha.exists_key
  obtain ⟨l, hl⟩ := hb.exists_key
  have same := rawEqual_iff_key hk hl
  refine ⟨⟨k, l, hk, hl, same, rawEqual_key_iff, fingerprint_inj.trans ⟨Key.ext_value, congrArg Key.value⟩⟩,
    rawEqual_equivalence, fun t => ⟨fun hash v => t.probe_eq_get hash v, fun hash k => t.entries.probe?_key hash k,
      fun h => ?_⟩⟩
  obtain rfl := same.1 h
  have reads : t.get a = t.get b := by rw [Table.get, Table.get, hk, hl]
  refine ⟨reads, fun hash => ?_, fun v => ?_⟩
  · rw [t.probe_eq_get, t.probe_eq_get, reads]
  · rw [Table.set, Table.set, hk, hl]

/-- Minus zero is the key zero, while 2^63, which is no word, is the key that it is. -/
theorem rawEqual_canonical_zero :
    let zero : Value := .float ⟨0x8000000000000000⟩
    let t := (Table.empty.setInt 0 (.str "zero")).setKey ⟨.float ⟨0x43e0000000000000⟩, by decide +kernel⟩ (.str "big")
    zero.CanBeKey ∧ (Value.int 0).CanBeKey ∧ zero.rawEqual (.int 0) = true ∧
      (∀ hash, t.probe hash zero = .str "zero") ∧
      (∀ hash, t.probe hash (.float ⟨0x43e0000000000000⟩) = .str "big") ∧
      (Value.float ⟨0x43e0000000000000⟩).rawEqual (.int Int64.maxValue) = false := by
  intro zero t
  have hzero : zero.CanBeKey := ⟨by decide, fun x h => float.inj h ▸ by decide⟩
  have hint : (Value.int 0).CanBeKey := ⟨by decide, fun x h => by cases h⟩
  obtain ⟨-, -, reads⟩ := rawEqual_canonical hzero hint
  obtain ⟨probes, -, same⟩ := reads t
  have equal : zero.rawEqual (.int 0) = true := by decide +kernel
  refine ⟨hzero, hint, equal, fun hash => ?_, fun hash => ?_, by decide +kernel⟩
  · rw [(same equal).2.1, probes]
    decide +kernel
  · rw [probes]
    decide +kernel

end Value
end RegisterMachine
