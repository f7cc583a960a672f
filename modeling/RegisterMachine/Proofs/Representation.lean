import Mathlib.Data.Nat.PSub
import RegisterMachine.Proofs.Keys

/-! What every table keeps to, whatever is done to it. Its entries have different keys, none of which belongs into the
dense part, and the count of the cleared ones is right. The operations are given once more, with counts that cannot go
below zero and with a loop that has to come to its end: they never fail, and do what the tables do. -/
namespace RegisterMachine

namespace Entries

variable {es : Entries} {k : Key} {n : Nat} {v : Value}

/-- The change of the value at a place, unless the count would be lowered from zero. -/
def setAt? (es : Entries) (n : Nat) (v : Value) : Option Entries :=
  let count? : Option Nat := match (es.valueAt n).isNil, v.isNil with
    | false, true => some (es.cleared + 1)
    | true, false => es.cleared.ppred
    | _, _ => some es.cleared
  count?.map fun cleared => { es.setAt n v with cleared }

def set? (es : Entries) (k : Key) (v : Value) : Option Entries :=
  match es.position? k with
  | some n => es.setAt? n v
  | none =>
    if v.isNil then some es
    else some ((if 0 < es.cleared then es.compact else es).push ⟨k, v⟩)

/-- The removal of a key, unless the count would be lowered from zero. -/
def remove? (es : Entries) (k : Key) : Option (Option Value × Entries) :=
  match es.position? k with
  | none => some (none, es)
  | some n =>
    let v := es.valueAt n
    let es := es.removeAt n
    if v.isNil then es.cleared.ppred.map fun cleared => (none, { es with cleared }) else some (some v, es)

namespace Tidy

theorem cleared_le (tidy : es.Tidy) : es.cleared ≤ es.toArray.size := by
  rw [tidy.cleared, ← Array.length_toList]
  exact List.countP_le_length

theorem cleared_pos (tidy : es.Tidy) (h : es.position? k = some n) (cleared : (es.valueAt n).isNil = true) :
    0 < es.cleared := by
  obtain ⟨before, after, eq, -⟩ := split_of_position? h
  rw [tidy.cleared, List.countP_pos_iff]
  exact ⟨⟨k, es.valueAt n⟩, by simp [eq], cleared⟩

theorem ppred_cleared (tidy : es.Tidy) (h : es.position? k = some n) (cleared : (es.valueAt n).isNil = true) :
    es.cleared.ppred = some (es.cleared - 1) :=
  Nat.ppred_eq_some.2 (Nat.sub_add_cancel (tidy.cleared_pos h cleared))

theorem setAt?_eq (tidy : es.Tidy) (h : es.position? k = some n) (v : Value) :
    es.setAt? n v = some (es.setAt n v) := by
  have count := cleared_setAt es n v
  rw [setAt?]
  cases old : (es.valueAt n).isNil <;> cases new : v.isNil <;>
    simp only [old, new, if_true, if_false, Bool.false_eq_true, reduceCtorEq] at count ⊢
  case true.false => rw [tidy.ppred_cleared h old, ← count]; rfl
  all_goals rw [← count]; rfl

theorem set?_eq (tidy : es.Tidy) (k : Key) (v : Value) : es.set? k v = some (es.set k v) := by
  rw [Entries.set?, Entries.set]
  cases h : es.position? k with
  | some n => exact tidy.setAt?_eq h v
  | none =>
    dsimp only
    split <;> rfl

theorem remove?_eq (tidy : es.Tidy) (k : Key) : es.remove? k = some (es.remove k) := by
  rw [Entries.remove?, Entries.remove]
  cases h : es.position? k with
  | none => rfl
  | some n =>
    dsimp only
    split
    · rename_i cleared
      rw [cleared_removeAt, tidy.ppred_cleared h cleared]
      rfl
    · rfl

end Tidy
end Entries

namespace Table

variable {t : Table} {k : Key} {v : Value}

/-- The loop that moves entries into the dense part: it goes on while there are any and the next key has a value.
Nothing if that takes more rounds than the first argument says. -/
def migrate? : Nat → Table → Option Table
  | 0, _ => none
  | rounds + 1, t =>
    if t.entries.toArray.isEmpty || t.isFull then some t
    else (t.entries.remove? (.ofInt t.nextIndex)).bind fun (found, entries) =>
      match found with
      | some v => migrate? rounds { t with items := t.items.push v, entries }
      | none => some { t with entries }

def setInt? (t : Table) (i : Int64) (v : Value) : Option Table :=
  match t.slot? i with
  | some n => some { t with items := t.items.setIfInBounds n v }
  | none =>
    if i.toInt == t.items.size + 1 && !v.isNil then
      (t.entries.remove? (.ofInt i)).bind fun (_, entries) =>
        let t := { t with items := t.items.push v, entries }
        t.migrate? (t.entries.toArray.size + 1)
    else (t.entries.set? (.ofInt i) v).map fun entries => { t with entries }

def setKey? (t : Table) (k : Key) (v : Value) : Option Table :=
  match k.value with
  | .int i => t.setInt? i v
  | _ => (t.entries.set? k v).map fun entries => { t with entries }

def setFrom? (t : Table) (first : Nat) : List Value → Option Table
  | [] => some t
  | v :: vs => (t.setInt? (Int64.ofInt first) v).bind fun t => t.setFrom? (first + 1) vs

theorem migrate?_eq (tidy : t.entries.Tidy) {rounds : Nat} (enough : t.entries.toArray.size < rounds) :
    t.migrate? rounds = some (t.migrate t.entries.toArray.size) := by
  induction rounds generalizing t with
  | zero => exact absurd enough (Nat.not_lt_zero _)
  | succ rounds ih =>
    rw [migrate?]
    by_cases empty : t.entries.toArray.isEmpty
    · rw [if_pos (by simp [empty]), Array.isEmpty_iff_size_eq_zero.1 empty]
      rfl
    obtain ⟨n, size⟩ := Nat.exists_eq_succ_of_ne_zero (mt Array.isEmpty_iff_size_eq_zero.2 empty)
    rw [size, migrate_succ]
    by_cases full : t.isFull
    · rw [if_pos (by simp [full]), if_pos full]
    · have first := Entries.remove_fst t.entries (.ofInt t.nextIndex)
      rw [if_neg (by simp [empty, full]), if_neg full, tidy.remove?_eq, Option.bind_some]
      by_cases cleared : (t.entries.get (.ofInt t.nextIndex)).isNil
      · rw [if_pos cleared] at first ⊢
        rw [← Prod.mk.eta (p := t.entries.remove _), first]
      · -- the entry that is moved leaves one less for the rounds behind
        rw [if_neg cleared] at first ⊢
        have fewer := Entries.size_remove (mt Value.isNil_iff.2 cleared)
        have left : (t.extend (.ofInt t.nextIndex) (t.entries.get (.ofInt t.nextIndex))).entries.toArray.size = n := by
          simp only [extend]
          omega
        rw [← Prod.mk.eta (p := t.entries.remove _), first, ← left]
        exact ih (tidy.remove _) (by simp only; omega)

theorem setKey?_eq (tidy : t.entries.Tidy) (k : Key) (v : Value) : t.setKey? k v = some (t.setKey k v) := by
  obtain ⟨w, hw⟩ := k
  cases w with
  | int i =>
    simp only [setKey?, setKey, setInt?, setInt]
    cases t.slot? i with
    | some n => rfl
    | none =>
      dsimp only
      split
      · have tidy' : (t.extend (.ofInt i) v).entries.Tidy := tidy.remove _
        rw [tidy.remove?_eq]
        exact migrate?_eq tidy' (Nat.lt_succ_self _)
      · rw [tidy.set?_eq]
        rfl
  | _ =>
    simp only [setKey?, setKey, tidy.set?_eq]
    rfl

theorem setFrom?_eq (neat : t.Neat) (first : Nat) (vs : List Value) :
    t.setFrom? first vs = some (t.setFrom first vs) := by
  induction vs generalizing t first with
  | nil => rfl
  | cons v vs ih =>
    have step : t.setInt? (Int64.ofInt first) v = some _ := setKey?_eq neat.tidy (.ofInt _) v
    rw [setFrom?, step]
    exact ih (neat.neat_setKey (.ofInt _) v) (first + 1)

/-- The ways to change a table, that of its metatable with them. -/
inductive Edit
  | assign (op : Op)
  | setMetatable (metatable : Option (Ref .table))

namespace Edit

def apply (t : Table) : Edit → Table
  | .assign op => op.apply t
  | .setMetatable metatable => { t with metatable }

/-- What an edit makes of a table, unless a count would go below zero or a loop not end. -/
def attempt? (t : Table) : Edit → Option Table
  | .assign (.set k v) =>
    match Key.ofValue k with
    | .ok k => t.setKey? k v
    | .error _ => some t
  | .assign (.setInt i v) => t.setInt? i v
  | .assign (.setStr s v) => t.setKey? (.ofString s) v
  | .assign (.ofList vs) => empty.setFrom? 1 vs
  | .setMetatable metatable => some { t with metatable }

end Edit

namespace Steady

theorem edit (h : t.Steady) (edit : Edit) :
    (edit.apply t).Steady ∧ edit.attempt? t = some (edit.apply t) := by
  cases edit with
  | setMetatable metatable => exact ⟨h.setMetatable metatable, rfl⟩
  | assign op =>
    refine ⟨h.apply op, ?_⟩
    cases op with
    | set k v =>
      simp only [Edit.apply, Edit.attempt?, Op.apply, Table.set]
      cases Key.ofValue k with
      | ok k => exact setKey?_eq h.neat.tidy k v
      | error => rfl
    | setInt i v => exact setKey?_eq h.neat.tidy (.ofInt i) v
    | setStr s v => exact setKey?_eq h.neat.tidy (.ofString s) v
    | ofList vs => exact setFrom?_eq neat_empty 1 vs

theorem edits (h : t.Steady) (edits : List Edit) :
    (edits.foldl Edit.apply t).Steady ∧ edits.foldlM Edit.attempt? t = some (edits.foldl Edit.apply t) := by
  induction edits generalizing t with
  | nil => exact ⟨h, rfl⟩
  | cons edit edits ih =>
    obtain ⟨h', eq⟩ := h.edit edit
    rw [List.foldlM_cons, eq]
    exact ih h'

theorem pairwise_keys (h : t.Steady) :
    t.entries.toArray.toList.Pairwise fun e e' => e.key.value.rawEqual e'.key.value = false := by
  refine (List.pairwise_map.1 h.neat.tidy.nodup).imp fun {e e'} apart => Bool.eq_false_iff.2 fun same => ?_
  exact apart (Value.rawEqual_key_iff.1 same)

theorem not_dense (h : t.Steady) {e : Entry} (mem : e ∈ t.entries.toArray.toList) {i : Int64}
    (key : e.key.value = .int i) : ¬(1 ≤ i.toInt ∧ i.toInt ≤ t.items.size) := by
  rintro ⟨low, high⟩
  refine place?_eq_none_iff.1 (h.neat.apart e mem) (i.toInt.toNat - 1) (by omega) ⟨i, key, ?_⟩
  omega

theorem next_cleared (h : t.Steady) {e : Entry} (mem : e ∈ t.entries.toArray.toList) {i : Int64}
    (key : e.key.value = .int i) (next : i.toInt = t.items.size + 1) : e.value = .nil := by
  rw [← h.neat.tidy.get_of_mem mem]
  exact h.settled e.key ⟨i, key, next⟩

end Steady

/-- Whatever is done to a table, no count goes below zero and every loop that moves entries ends. The entries have
distinct normalized keys, none of which belongs into the dense part. -/
theorem representation_invariant (edits : List Edit) :
    let t := edits.foldl Edit.apply empty
    let entries := t.entries.toArray.toList
    edits.foldlM Edit.attempt? empty = some t ∧
      (∀ e ∈ entries, Key.ofValue e.key.value = .ok e.key) ∧
      entries.Pairwise (fun e e' => e.key.value.rawEqual e'.key.value = false) ∧
      t.entries.cleared = entries.countP (fun e => e.value.isNil) ∧
      entries.length.psub t.entries.cleared = some t.entries.liveCount ∧
      (∀ e ∈ entries, ∀ i : Int64, e.key.value = .int i → ¬(1 ≤ i.toInt ∧ i.toInt ≤ t.items.size)) ∧
      ∀ e ∈ entries, ∀ i : Int64, e.key.value = .int i → i.toInt = t.items.size + 1 → e.value = .nil := by
  intro t entries
  obtain ⟨steady, goes⟩ := steady_empty.edits edits
  have le : t.entries.cleared ≤ entries.length := steady.neat.tidy.cleared_le
  exact ⟨goes, fun e _ => Key.ofValue_value e.key, steady.pairwise_keys, steady.neat.tidy.cleared,
    Nat.psub_eq_some.2 (Nat.sub_add_cancel le), fun e mem i => steady.not_dense mem,
    fun e mem i => steady.next_cleared mem⟩

/-- A cleared key is dropped by the loop, and not moved. -/
example :
    let edits : List Edit := [.assign (.setInt 2 (.int 2)), .assign (.setInt 2 .nil), .assign (.setInt 1 (.int 1))]
    let t := edits.foldl Edit.apply empty
    t.items = #[.int 1] ∧ t.entries.toArray = #[] ∧ t.entries.cleared = 0 := by
  decide +kernel

end Table
end RegisterMachine
