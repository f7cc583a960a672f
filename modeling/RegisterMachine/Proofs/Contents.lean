import Mathlib.Data.Finmap
import RegisterMachine.Proofs.Entries
import RegisterMachine.Table

/-! What a table holds. A table is the finite map from keys to values other than nil that its
assignments describe: no key is in two places, every assignment changes the value of one key, and
moving entries into the dense part or dropping cleared ones changes none. -/
namespace RegisterMachine

def Key.At (k : Key) (n : Nat) : Prop := ∃ i, k.value = .int i ∧ i.toInt = n + 1

theorem Key.ext_value {k k' : Key} (h : k.value = k'.value) : k = k' := by
  cases k
  cases k'
  simpa using h

theorem Key.At.inj {k k' : Key} {n : Nat} (h : k.At n) (h' : k'.At n) : k = k' := by
  obtain ⟨i, hk, hi⟩ := h
  obtain ⟨j, hk', hj⟩ := h'
  have : i = j := Int64.toInt_inj.1 (hi.trans hj.symm)
  exact Key.ext_value (by rw [hk, hk', this])

theorem Key.At.unique {k : Key} {n n' : Nat} (h : k.At n) (h' : k.At n') : n = n' := by
  obtain ⟨i, hk, hi⟩ := h
  obtain ⟨j, hk', hj⟩ := h'
  obtain rfl : i = j := by simpa [hk] using hk'
  omega

theorem Key.At.lt {k : Key} {n : Nat} (h : k.At n) : n + 1 < 2 ^ 63 := by
  obtain ⟨i, -, hi⟩ := h
  have := i.toInt_lt
  omega

theorem Key.at_ofInt {n : Nat} (h : n + 1 < 2 ^ 63) : (Key.ofInt (Int64.ofInt (n + 1))).At n :=
  ⟨_, rfl, Int64.toInt_ofInt_of_le (by omega) (by omega)⟩

namespace Table

variable {t : Table} {k : Key} {n : Nat} {v : Value}

def place? (t : Table) (k : Key) : Option Nat :=
  match k.value with
  | .int i => t.slot? i
  | _ => none

theorem slot?_eq_some_iff {i : Int64} : t.slot? i = some n ↔ i.toInt = n + 1 ∧ n < t.items.size := by
  rw [slot?]
  split
  · rename_i h
    simp only [Bool.and_eq_true, decide_eq_true_eq] at h
    simp only [Option.some.injEq]
    omega
  · rename_i h
    simp only [Bool.and_eq_true, decide_eq_true_eq] at h
    simp only [reduceCtorEq, false_iff]
    omega

theorem place?_eq_some_iff : t.place? k = some n ↔ k.At n ∧ n < t.items.size := by
  cases hk : k.value <;> simp [place?, Key.At, hk, slot?_eq_some_iff]

theorem place?_eq_none_iff : t.place? k = none ↔ ∀ n < t.items.size, ¬ k.At n := by
  simp only [Option.eq_none_iff_forall_ne_some, ne_eq, place?_eq_some_iff, not_and]
  exact ⟨fun h n bound held => h n held bound, fun h n held bound => h n bound held⟩

theorem getKey_eq (t : Table) (k : Key) :
    t.getKey k = match t.place? k with
      | some n => t.items.getD n .nil
      | none => t.entries.get k := by
  obtain ⟨v, hv⟩ := k
  cases v <;> rfl

/-- Writes the next place of the dense part, for a key that may have an entry. -/
def extend (t : Table) (k : Key) (v : Value) : Table :=
  { t with items := t.items.push v, entries := (t.entries.remove k).2 }

theorem setKey_cases (t : Table) (k : Key) (v : Value) :
    (∃ n, t.place? k = some n ∧ t.setKey k v = { t with items := t.items.setIfInBounds n v }) ∨
    (k.At t.items.size ∧ v ≠ .nil ∧
      t.setKey k v = (t.extend k v).migrate (t.extend k v).entries.toArray.size) ∨
    (t.place? k = none ∧ (k.At t.items.size → v = .nil) ∧
      t.setKey k v = { t with entries := t.entries.set k v }) := by
  obtain ⟨w, hw⟩ := k
  cases w with
  | int i =>
    simp only [setKey, setInt, place?]
    split
    next n h => exact .inl ⟨n, h, rfl⟩
    next h =>
      split
      · rename_i next
        simp only [Bool.and_eq_true, beq_iff_eq, Bool.not_eq_true'] at next
        exact .inr (.inl ⟨⟨i, rfl, next.1⟩, Value.isNil_eq_false_iff.1 next.2, rfl⟩)
      · rename_i other
        refine .inr (.inr ⟨h, ?_, rfl⟩)
        rintro ⟨j, hj, next⟩
        obtain rfl : i = j := by simpa using hj
        by_contra live
        simp [next, Value.isNil_eq_false_iff.2 live] at other
  | _ => exact .inr (.inr ⟨rfl, by simp [Key.At], rfl⟩)

/-- No key is in two places, and every place has a key. -/
structure Neat (t : Table) : Prop where
  tidy : t.entries.Tidy
  apart : ∀ e ∈ t.entries.toArray.toList, t.place? e.key = none
  room : t.items.size < 2 ^ 63

theorem neat_empty : empty.Neat where
  tidy := Entries.tidy_empty
  apart := by simp [empty, Entries.empty]
  room := by simp [empty]

theorem getKey_of_at (h : k.At n) (bound : n < t.items.size) : t.getKey k = t.items.getD n .nil := by
  rw [getKey_eq, place?_eq_some_iff.2 ⟨h, bound⟩]

theorem getKey_of_place?_none (h : t.place? k = none) : t.getKey k = t.entries.get k := by
  rw [getKey_eq, h]

theorem place?_assignItem (t : Table) (n : Nat) (v : Value) (k : Key) :
    place? { t with items := t.items.setIfInBounds n v } k = t.place? k := by
  cases hk : k.value <;> simp [place?, hk, slot?]

theorem eq_nextIndex (h : k.At t.items.size) : k = .ofInt t.nextIndex := by
  obtain ⟨i, hk, hi⟩ := h
  refine Key.ext_value (hk.trans (congrArg Value.int ?_))
  rw [nextIndex, ← hi, Int64.ofInt_toInt]

theorem place?_extend_of_ne {k' : Key} (h : k.At t.items.size) (ne : k' ≠ k) :
    (t.extend k v).place? k' = t.place? k' := by
  refine Option.ext fun n => ?_
  simp only [place?_eq_some_iff, extend, Array.size_push]
  constructor
  · rintro ⟨held, bound⟩
    refine ⟨held, ?_⟩
    by_contra far
    obtain rfl : n = t.items.size := by omega
    exact ne (held.inj h)
  · rintro ⟨held, bound⟩
    exact ⟨held, by omega⟩

theorem getKey_extend (neat : t.Neat) (h : k.At t.items.size) (v : Value) (k' : Key) :
    (t.extend k v).getKey k' = if k' = k then v else t.getKey k' := by
  split
  · rename_i same
    rw [same, getKey_of_at h (by simp [extend])]
    simp [extend]
  · rename_i ne
    rw [getKey_eq, getKey_eq, place?_extend_of_ne h ne]
    split
    · rename_i n place
      have bound := (place?_eq_some_iff.1 place).2
      simp [extend, Array.getElem?_push, Nat.ne_of_lt bound]
    · simp [extend, neat.tidy.get_remove, ne]

theorem Neat.extend (neat : t.Neat) (h : k.At t.items.size) (v : Value) : (t.extend k v).Neat where
  tidy := neat.tidy.remove k
  apart e mem := by
    obtain ⟨mem, ne⟩ := neat.tidy.mem_remove_iff.1 mem
    rw [place?_extend_of_ne h ne]
    exact neat.apart e mem
  room := by
    simp only [Table.extend, Array.size_push]
    exact h.lt

theorem isFull_eq_false_iff : t.isFull = false ↔ t.items.size + 1 < 2 ^ 63 := by
  have max : Int64.maxValue.toInt = 2 ^ 63 - 1 := by decide
  rw [isFull, decide_eq_false_iff_not, max]
  omega

theorem at_nextIndex (room : t.isFull = false) : (Key.ofInt t.nextIndex).At t.items.size :=
  Key.at_ofInt (isFull_eq_false_iff.1 room)

theorem migrate_succ (n : Nat) (t : Table) :
    t.migrate (n + 1) =
      if t.isFull then t
      else if (t.entries.get (.ofInt t.nextIndex)).isNil then
        { t with entries := (t.entries.remove (.ofInt t.nextIndex)).2 }
      else (t.extend (.ofInt t.nextIndex) (t.entries.get (.ofInt t.nextIndex))).migrate n := by
  have first := Entries.remove_fst t.entries (.ofInt t.nextIndex)
  rw [migrate]
  refine if_congr Iff.rfl rfl ?_
  split
  · rename_i v entries h
    rw [h] at first
    split
    · rename_i absent
      simp [absent] at first
    · rename_i present
      obtain rfl : v = _ := by simpa [present] using first
      rw [extend, h]
  · rename_i entries h
    rw [h] at first
    split
    · rw [h]
    · rename_i present
      simp [present] at first

theorem size_le_migrate (n : Nat) (t : Table) : t.items.size ≤ (t.migrate n).items.size := by
  induction n generalizing t with
  | zero => exact le_rfl
  | succ n ih =>
    rw [migrate_succ]
    split_ifs
    · exact le_rfl
    · exact le_rfl
    · refine le_trans ?_ (ih _)
      simp [extend]

theorem Neat.drop (neat : t.Neat) (cleared : t.entries.get k = .nil) :
    Neat { t with entries := (t.entries.remove k).2 } ∧
      ∀ k', getKey { t with entries := (t.entries.remove k).2 } k' = t.getKey k' := by
  refine ⟨⟨neat.tidy.remove k, fun e mem => neat.apart e (neat.tidy.mem_remove_iff.1 mem).1, neat.room⟩, ?_⟩
  intro k'
  rw [getKey_eq, getKey_eq]
  change (match t.place? k' with | some n => _ | none => _) = _
  cases t.place? k' with
  | some n => rfl
  | none =>
    dsimp only
    rw [neat.tidy.get_remove]
    split
    · rename_i same
      rw [same, cleared]
    · rfl

theorem Neat.migrate (neat : t.Neat) (n : Nat) :
    (t.migrate n).Neat ∧ ∀ k, (t.migrate n).getKey k = t.getKey k := by
  induction n generalizing t with
  | zero => exact ⟨neat, fun _ => rfl⟩
  | succ n ih =>
    rw [migrate_succ]
    split_ifs with full cleared
    · exact ⟨neat, fun _ => rfl⟩
    · exact neat.drop (Value.isNil_iff.1 cleared)
    · have next := at_nextIndex (Bool.eq_false_iff.2 full)
      have unplaced : t.place? (.ofInt t.nextIndex) = none :=
        place?_eq_none_iff.2 fun n bound held => bound.ne (held.unique next)
      obtain ⟨neat', kept⟩ := ih (neat.extend next (t.entries.get (.ofInt t.nextIndex)))
      refine ⟨neat', fun k => ?_⟩
      rw [kept, getKey_extend neat next, ← getKey_of_place?_none unplaced]
      split
      · rename_i same
        rw [same]
      · rfl

theorem size_le_setKey (t : Table) (k : Key) (v : Value) : t.items.size ≤ (t.setKey k v).items.size := by
  obtain ⟨n, -, eq⟩ | ⟨-, -, eq⟩ | ⟨-, -, eq⟩ := setKey_cases t k v <;> rw [eq]
  · simp
  · exact le_trans (by simp [extend]) (size_le_migrate ..)

theorem Neat.neat_setKey (neat : t.Neat) (k : Key) (v : Value) : (t.setKey k v).Neat := by
  obtain ⟨n, -, eq⟩ | ⟨next, -, eq⟩ | ⟨unplaced, -, eq⟩ := setKey_cases t k v <;> rw [eq]
  · exact ⟨neat.tidy, fun e mem => (place?_assignItem ..).trans (neat.apart e mem), by simpa using neat.room⟩
  · exact ((neat.extend next v).migrate _).1
  · refine ⟨neat.tidy.set k v, fun e mem => ?_, neat.room⟩
    obtain same | mem := Entries.mem_set _ k v mem
    · exact same ▸ unplaced
    · exact neat.apart e mem

theorem Neat.setKey (neat : t.Neat) (k : Key) (v : Value) :
    (t.setKey k v).Neat ∧ ∀ k', (t.setKey k v).getKey k' = if k' = k then v else t.getKey k' := by
  refine ⟨neat.neat_setKey k v, fun k' => ?_⟩
  obtain ⟨n, place, eq⟩ | ⟨next, -, eq⟩ | ⟨unplaced, -, eq⟩ := setKey_cases t k v
  · obtain ⟨held, bound⟩ := place?_eq_some_iff.1 place
    rw [eq, getKey_eq, getKey_eq, place?_assignItem]
    split
    · rename_i m place'
      obtain ⟨held', bound'⟩ := place?_eq_some_iff.1 place'
      split
      · rename_i same
        obtain rfl := (same ▸ held').unique held
        simp [bound]
      · rename_i ne
        have apart : n ≠ m := by
          rintro rfl
          exact ne (held'.inj held)
        simp [apart, bound']
    · rename_i unplaced
      rw [if_neg]
      rintro rfl
      simp [place] at unplaced
  · rw [eq, ((neat.extend next v).migrate _).2, getKey_extend neat next]
  · rw [eq, getKey_eq, getKey_eq]
    change (match t.place? k' with | some n => _ | none => _) = _
    split
    · rename_i n place
      rw [if_neg]
      rintro rfl
      simp [place] at unplaced
    · exact neat.tidy.get_set k v k'

end Table

abbrev Contents := Finmap fun _ : Key => { v : Value // v ≠ .nil }

namespace Contents

def get (m : Contents) (k : Key) : Value := ((m.lookup k).map Subtype.val).getD .nil

def read (m : Contents) (v : Value) : Value :=
  match Key.ofValue v with
  | .ok k => m.get k
  | .error _ => .nil

/-- Inserts a key, or erases it for nil. -/
def assign (m : Contents) (k : Key) (v : Value) : Contents :=
  if h : v = .nil then m.erase k else m.insert k ⟨v, h⟩

/-- The map of a sequence. -/
def ofList (vs : List Value) : Contents :=
  (vs.zipIdx 1).foldl (fun m (v, n) => m.assign (.ofInt (Int64.ofInt n)) v) ∅

theorem get_assign (m : Contents) (k : Key) (v : Value) (k' : Key) :
    (m.assign k v).get k' = if k' = k then v else m.get k' := by
  rw [assign]
  by_cases same : k' = k
  · subst same
    split <;> simp_all [get]
  · split <;> simp [get, same]

theorem mem_keys_iff (m : Contents) (k : Key) : k ∈ m.keys ↔ m.get k ≠ .nil := by
  rw [Finmap.mem_keys, ← Finmap.lookup_isSome, get]
  cases h : m.lookup k with
  | none => simp
  | some v => simp [v.2]

theorem keys_eq_empty_iff (m : Contents) : m.keys = ∅ ↔ m = ∅ := by
  constructor
  · intro none
    refine Finmap.ext_lookup fun k => ?_
    rw [Finmap.lookup_empty, Finmap.lookup_eq_none, ← Finmap.mem_keys, none]
    exact Finset.notMem_empty k
  · rintro rfl
    exact Finmap.keys_empty

end Contents

namespace Table

variable {t : Table} {m : Contents}

/-- The places of the dense part that hold a value. -/
def livePlaces (t : Table) : List Nat :=
  (List.range t.items.size).filter fun n => !(t.items.getD n .nil).isNil

/-- How many places of the dense part hold a value. -/
def liveItems (t : Table) : Nat := t.items.toList.countP fun v => !v.isNil

theorem length_livePlaces (t : Table) : t.livePlaces.length = t.liveItems := by
  have items : t.items.toList = (List.range t.items.size).map fun n => t.items.getD n .nil :=
    List.ext_getElem (by simp) fun n bound _ => by
      have : n < t.items.size := by simpa using bound
      simp [this]
  rw [liveItems, items, List.countP_map, livePlaces, ← List.countP_eq_length_filter]
  rfl

/-- The keys that hold a value, those of the dense part first. -/
def liveKeys (t : Table) : List Key :=
  (t.livePlaces.map fun n => .ofInt (Int64.ofInt (n + 1))) ++
    (t.entries.toArray.toList.filter fun e => !e.value.isNil).map Entry.key

theorem Neat.length_liveKeys (neat : t.Neat) : t.liveKeys.length = t.liveItems + t.entries.liveCount := by
  rw [liveKeys, List.length_append, List.length_map, List.length_map, length_livePlaces,
    ← List.countP_eq_length_filter, neat.tidy.liveCount]

theorem Neat.mem_placeKeys_iff (neat : t.Neat) {k : Key} :
    (k ∈ t.livePlaces.map fun n => .ofInt (Int64.ofInt (n + 1))) ↔
      ∃ n, t.place? k = some n ∧ t.items.getD n .nil ≠ .nil := by
  have room := neat.room
  simp only [livePlaces, List.mem_map, List.mem_filter, List.mem_range, Bool.not_eq_true',
    Value.isNil_eq_false_iff, place?_eq_some_iff]
  constructor
  · rintro ⟨n, ⟨bound, live⟩, rfl⟩
    exact ⟨n, ⟨Key.at_ofInt (by omega), bound⟩, live⟩
  · rintro ⟨n, ⟨held, bound⟩, live⟩
    exact ⟨n, ⟨bound, live⟩, (Key.at_ofInt (by omega)).inj held⟩

theorem Neat.mem_liveKeys_iff (neat : t.Neat) (k : Key) : k ∈ t.liveKeys ↔ t.getKey k ≠ .nil := by
  have entry : (k ∈ (t.entries.toArray.toList.filter fun e => !e.value.isNil).map Entry.key) ↔
      t.place? k = none ∧ t.entries.get k ≠ .nil := by
    simp only [List.mem_map, List.mem_filter, Bool.not_eq_true', Value.isNil_eq_false_iff]
    constructor
    · rintro ⟨e, ⟨mem, live⟩, rfl⟩
      refine ⟨neat.apart e mem, ?_⟩
      rwa [(neat.tidy.get_eq_iff live).2 mem]
    · rintro ⟨-, live⟩
      exact ⟨_, ⟨(neat.tidy.get_eq_iff live).1 rfl, live⟩, rfl⟩
  rw [liveKeys, List.mem_append, neat.mem_placeKeys_iff, entry, getKey_eq]
  cases t.place? k <;> simp

theorem Neat.nodup_liveKeys (neat : t.Neat) : t.liveKeys.Nodup := by
  have room := neat.room
  rw [liveKeys, List.nodup_append]
  refine ⟨?_, neat.tidy.nodup.sublist (List.filter_sublist.map _), ?_⟩
  · refine List.Nodup.map_on (fun n mem n' mem' same => ?_) (List.nodup_range.filter _)
    rw [livePlaces, List.mem_filter, List.mem_range] at mem mem'
    have held := Key.at_ofInt (n := n) (by omega)
    rw [same] at held
    exact held.unique (Key.at_ofInt (by omega))
  · rintro k mem k' mem' rfl
    obtain ⟨n, place, -⟩ := neat.mem_placeKeys_iff.1 mem
    obtain ⟨e, entry, rfl⟩ := List.mem_map.1 mem'
    rw [neat.apart e (List.mem_of_mem_filter entry)] at place
    simp at place

theorem Neat.card_keys (neat : t.Neat) (holds : ∀ k, t.getKey k = m.get k) :
    t.liveItems + t.entries.liveCount = m.keys.card := by
  have keys : m.keys = t.liveKeys.toFinset := by
    ext k
    rw [List.mem_toFinset, neat.mem_liveKeys_iff, holds, m.mem_keys_iff]
  rw [keys, List.toFinset_card_of_nodup neat.nodup_liveKeys, neat.length_liveKeys]

theorem borderUpTo_eq_zero_iff (t : Table) (n : Nat) :
    t.borderUpTo n = 0 ↔ ∀ i < n, t.items.getD i .nil = .nil := by
  induction n with
  | zero => simp [borderUpTo]
  | succ n ih =>
    rw [borderUpTo, Nat.forall_lt_succ_right]
    split
    · rename_i cleared
      rw [ih]
      exact ⟨fun h => ⟨h, Value.isNil_iff.1 cleared⟩, fun h => h.1⟩
    · rename_i live
      exact ⟨fun h => absurd h (by omega), fun h => absurd (Value.isNil_iff.2 h.2) live⟩

theorem isEmpty_iff (t : Table) : t.isEmpty = true ↔ t.liveItems + t.entries.liveCount = 0 := by
  have places : t.border = 0 ↔ t.liveItems = 0 := by
    rw [border, borderUpTo_eq_zero_iff, ← length_livePlaces, List.length_eq_zero_iff, livePlaces,
      List.filter_eq_nil_iff]
    simp [Value.isNil_iff]
  rw [isEmpty, Bool.and_eq_true, beq_iff_eq, beq_iff_eq, places]
  omega

end Table

/-- The ways to build and change a table. -/
inductive Table.Op
  | set (key value : Value)
  | setInt (i : Int64) (value : Value)
  | setStr (s : String) (value : Value)
  | ofList (values : List Value)

namespace Table.Op

/-- What an operation makes of a table; a value that is no key changes nothing. -/
def apply (t : Table) : Op → Table
  | .set k v =>
    match t.set k v with
    | .ok t => t
    | .error _ => t
  | .setInt i v => t.setInt i v
  | .setStr s v => t.setStr s v
  | .ofList vs => .ofList vs

/-- What an operation makes of a finite map. -/
def describe (m : Contents) : Op → Contents
  | .set k v =>
    match Key.ofValue k with
    | .ok k => m.assign k v
    | .error _ => m
  | .setInt i v => m.assign (.ofInt i) v
  | .setStr s v => m.assign (.ofString s) v
  | .ofList vs => .ofList vs

end Table.Op

namespace Table

/-- A table in order that reads as a finite map does. -/
structure Describes (m : Contents) (t : Table) : Prop where
  neat : t.Neat
  getKey_eq : ∀ k, t.getKey k = m.get k

variable {t : Table} {m : Contents} {k : Key} {v : Value}

theorem describes_empty : Describes ∅ empty where
  neat := neat_empty
  getKey_eq k := by
    have unplaced : empty.place? k = none := place?_eq_none_iff.2 fun n bound => by simp [empty] at bound
    rw [getKey_of_place?_none unplaced, Entries.get_of_position?_none]
    · simp [Contents.get]
    · exact Entries.position?_eq_none_iff.2 (by simp [empty, Entries.empty])

theorem Describes.setKey (h : Describes m t) (k : Key) (v : Value) :
    Describes (m.assign k v) (t.setKey k v) := by
  obtain ⟨neat, getKey⟩ := h.neat.setKey k v
  refine ⟨neat, fun k' => ?_⟩
  rw [getKey, m.get_assign, h.getKey_eq]

theorem Describes.setFrom (h : Describes m t) (first : Nat) (vs : List Value) :
    Describes ((vs.zipIdx first).foldl (fun m (v, n) => m.assign (.ofInt (Int64.ofInt n)) v) m)
      (t.setFrom first vs) := by
  induction vs generalizing t m first with
  | nil => exact h
  | cons v vs ih => exact ih (h.setKey (.ofInt _) v) (first + 1)

/-- Consecutive keys get the values of a list in turn, and all other keys keep theirs. -/
theorem Neat.getKey_setFrom (neat : t.Neat) {first : Nat} {vs : List Value} (positive : 0 < first)
    (fits : first + vs.length ≤ 2 ^ 63) :
    (∀ i v, vs[i]? = some v → (t.setFrom first vs).getKey (.ofInt (Int64.ofInt (first + i : Nat))) = v) ∧
      ∀ k, (∀ i < vs.length, k ≠ .ofInt (Int64.ofInt (first + i : Nat))) →
        (t.setFrom first vs).getKey k = t.getKey k := by
  induction vs generalizing t first with
  | nil => exact ⟨fun _ _ h => (nomatch h), fun _ _ => rfl⟩
  | cons v vs ih =>
    rw [List.length_cons] at fits
    obtain ⟨neat', getKey⟩ := neat.setKey (.ofInt (Int64.ofInt first)) v
    obtain ⟨given, kept⟩ := ih neat' (Nat.succ_pos first) (by omega)
    have behind (i : Nat) : first + 1 + i = first + (i + 1) := by omega
    constructor
    · intro i u hi
      cases i with
      | zero =>
        obtain rfl := Option.some.inj hi
        refine (kept _ fun i hi same => ?_).trans ((getKey _).trans (if_pos rfl))
        -- the keys behind the first one are others
        have here : (Key.ofInt (Int64.ofInt (first - 1 + 1 : Nat))).At (first - 1) := Key.at_ofInt (by omega)
        have there : (Key.ofInt (Int64.ofInt (first + i + 1 : Nat))).At (first + i) := Key.at_ofInt (by omega)
        rw [Nat.sub_add_cancel positive, show first = first + 0 from rfl, same, behind] at here
        have := here.unique there
        omega
      | succ i =>
        rw [← given i u hi, Nat.succ_eq_add_one, behind]
        rfl
    · intro k apart
      refine (kept k fun i hi => ?_).trans ((getKey k).trans (if_neg (apart 0 (Nat.succ_pos _))))
      rw [Nat.succ_eq_add_one, behind]
      exact apart (i + 1) (Nat.succ_lt_succ hi)

theorem Describes.apply (h : Describes m t) (op : Op) : Describes (op.describe m) (op.apply t) := by
  cases op with
  | set k v =>
    simp only [Op.apply, Op.describe, Table.set]
    cases Key.ofValue k with
    | ok k => exact h.setKey k v
    | error => exact h
  | setInt i v => exact h.setKey (.ofInt i) v
  | setStr s v => exact h.setKey (.ofString s) v
  | ofList vs => exact describes_empty.setFrom 1 vs

theorem Describes.foldl (h : Describes m t) (ops : List Op) :
    Describes (ops.foldl Op.describe m) (ops.foldl Op.apply t) := by
  induction ops generalizing t m with
  | nil => exact h
  | cons op ops ih => exact ih (h.apply op)

end Table

theorem Binary64.toInt64?_of_isNaN {x : Binary64} (h : x.isNaN) : x.toInt64? = none := by
  simp [toInt64?, lt, h]

/-- Only nil and NaN are no keys. -/
theorem Key.ofValue_eq_error_iff {v : Value} {f : KeyFault} :
    Key.ofValue v = .error f ↔
      (v = .nil ∧ f = .nil) ∨ ∃ x : Binary64, v = .float x ∧ x.isNaN ∧ f = .nan := by
  cases v with
  | float x =>
    by_cases nan : x.isNaN
    · have none := Binary64.toInt64?_of_isNaN nan
      rw [Key.ofValue]
      cases f <;> split <;> simp_all
    · rw [Key.ofValue]
      split <;> simp_all
  | nil => cases f <;> simp [Key.ofValue]
  | _ => simp [Key.ofValue]

namespace Table

/-- After any assignments a table reads as the finite map that they describe does. -/
theorem refines_contents (ops : List Op) :
    let t := ops.foldl Op.apply empty
    let m := ops.foldl Op.describe ∅
    (∀ v, t.get v = m.read v) ∧ (∀ i, t.getInt i = m.get (.ofInt i)) ∧
      (∀ s, t.getStr s = m.get (.ofString s)) ∧ (t.isEmpty = true ↔ m = ∅) ∧
      t.liveItems + t.entries.liveCount = m.keys.card ∧
      ∀ k v f, (t.set k v = .error f ↔
          (k = .nil ∧ f = .nil) ∨ ∃ x : Binary64, k = .float x ∧ x.isNaN ∧ f = .nan) ∧
        (t.set k v = .error f → Op.apply t (.set k v) = t) := by
  intro t m
  have h : Describes m t := describes_empty.foldl ops
  have card := h.neat.card_keys h.getKey_eq
  refine ⟨fun v => ?_, fun i => h.getKey_eq (.ofInt i), fun s => h.getKey_eq (.ofString s), ?_, card,
    fun k v f => ⟨?_, fun failed => ?_⟩⟩
  · rw [get, Contents.read]
    cases Key.ofValue v with
    | ok k => exact h.getKey_eq k
    | error => rfl
  · rw [isEmpty_iff, card, Finset.card_eq_zero, Contents.keys_eq_empty_iff]
  · rw [← Key.ofValue_eq_error_iff, set]
    split <;> simp_all
  · simp [Op.apply, failed]

/-- A sequence written from behind, so that its values move out of the entries, with cleared keys. -/
theorem refines_contents_moved :
    let ops : List Op := [.set (.int 3) (.str "c"), .setStr "n" (.int 2), .setInt 2 (.str "b"),
      .setStr "n" .nil, .set (.float (.ofInt 1)) (.str "a"), .set .nil (.int 0), .setInt 2 .nil]
    let t := ops.foldl Op.apply empty
    let m := ops.foldl Op.describe ∅
    t.items = #[.str "a", .nil, .str "c"] ∧ t.liveItems + t.entries.liveCount = 2 ∧
      m.keys.card = 2 ∧ m.get (.ofInt 3) = .str "c" ∧ m ≠ ∅ := by
  intro ops t m
  obtain ⟨-, getInt, -, isEmpty, card, -⟩ := refines_contents ops
  have count : t.liveItems + t.entries.liveCount = 2 := by decide +kernel
  refine ⟨by decide +kernel, count, card.symm.trans count, ?_, ?_⟩
  · rw [← getInt]
    decide +kernel
  · rw [ne_eq, ← isEmpty]
    decide +kernel

end Table
end RegisterMachine
