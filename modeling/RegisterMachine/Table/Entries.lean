import RegisterMachine.Key
import Std.Data.HashMap

/-! The entries of a table, oldest first. Clearing an entry leaves it in place with a nil, so that a
traversal can go on from it; the cleared entries are dropped when a new key comes in. From 64 entries
on there is an index of the places, which is only a faster way to find the first entry of a key. -/
namespace RegisterMachine

structure Entry where
  key : Key
  value : Value
  deriving DecidableEq, Repr, Inhabited

def findKey? (es : Array Entry) (k : Key) : Option Nat := es.findIdx? fun e => e.key = k

theorem findKey?_push (es : Array Entry) (e : Entry) (k : Key) :
    findKey? (es.push e) k = (findKey? es k).or (if e.key = k then some es.size else none) := by
  simp [findKey?, Array.findIdx?_push]

theorem findKey?_congr {es es' : Array Entry} (h : es.map Entry.key = es'.map Entry.key) (k : Key) :
    findKey? es k = findKey? es' k := by
  have := congrArg (fun ks : Array Key => ks.findIdx? fun k' => k' = k) h
  simpa only [Array.findIdx?_map, Function.comp_def, findKey?] using this

theorem size_eraseIdx_last {es : Array Entry} {n : Nat} (last : n + 1 = es.size) :
    (es.eraseIdxIfInBounds n).size = n := by
  have bound : n < es.size := by omega
  rw [Array.eraseIdxIfInBounds, dif_pos bound, Array.size_eraseIdx]
  omega

theorem push_eraseIdx_last {es : Array Entry} {n : Nat} (last : n + 1 = es.size) :
    (es.eraseIdxIfInBounds n).push (es.getD n default) = es := by
  have bound : n < es.size := by omega
  rw [Array.eraseIdxIfInBounds, dif_pos bound]
  apply Array.ext
  · rw [Array.size_push, Array.size_eraseIdx]
    omega
  · intro i _ _
    rw [Array.getElem_push]
    split
    · rename_i h
      rw [Array.size_eraseIdx] at h
      rw [Array.getElem_eraseIdx_of_lt]
      omega
    · rename_i h
      rw [Array.size_eraseIdx] at h
      obtain rfl : i = n := by omega
      simp

abbrev KeyIndex := Std.HashMap Key Nat

namespace KeyIndex

def Indexes (m : KeyIndex) (es : Array Entry) : Prop := ∀ k : Key, m[k]? = findKey? es k

theorem Indexes.push {m : KeyIndex} {es : Array Entry} (h : m.Indexes es) (e : Entry) :
    Indexes (m.insertIfNew e.key es.size) (es.push e) := by
  intro k
  rw [Std.HashMap.getElem?_insertIfNew, findKey?_push, ← h k]
  by_cases hk : e.key = k
  · subst hk
    cases hm : m[e.key]? <;> simp [Std.HashMap.mem_iff_isSome_getElem?, hm]
  · simp [hk]

theorem Indexes.pop {m : KeyIndex} {es : Array Entry} {e : Entry} (h : m.Indexes (es.push e))
    (first : m[e.key]? = some es.size) : Indexes (m.erase e.key) es := by
  have absent : findKey? es e.key = none := by
    have := h e.key
    rw [first, findKey?_push] at this
    cases hf : findKey? es e.key with
    | none => rfl
    | some n =>
      have bound : n < es.size := (Array.findIdx?_eq_some_iff_findIdx_eq.1 hf).1
      simp [hf] at this
      omega
  intro k
  rw [Std.HashMap.getElem?_erase]
  by_cases hk : e.key = k
  · subst hk
    simp [absent]
  · simp [hk, h k, findKey?_push]

def ofArray (es : Array Entry) : KeyIndex :=
  (es.foldl (fun (m, n) e => (m.insertIfNew e.key n, n + 1)) ((∅ : KeyIndex), 0)).1

theorem indexes_ofArray (es : Array Entry) : (ofArray es).Indexes es := by
  have (es : List Entry) (m : KeyIndex) (a : Array Entry) (h : m.Indexes a) :
      Indexes (es.foldl (fun (m, n) e => (m.insertIfNew e.key n, n + 1)) (m, a.size)).1
        (a ++ es.toArray) := by
    induction es generalizing m a with
    | nil => simpa using h
    | cons e es ih => simpa using ih _ _ (h.push e)
  simpa [ofArray] using this es.toList ∅ #[] fun k => by simp [findKey?]

end KeyIndex

structure Entries where
  toArray : Array Entry := #[]
  /-- How many entries hold nil. -/
  cleared : Nat := 0
  index : Option KeyIndex := none
  indexes : ∀ m ∈ index, m.Indexes toArray := by simp

namespace Entries

def empty : Entries := {}

instance : Inhabited Entries := ⟨empty⟩

def position? (es : Entries) (k : Key) : Option Nat :=
  match es.index with
  | some m => m[k]?
  | none => findKey? es.toArray k

theorem position?_eq_findKey? (es : Entries) (k : Key) : es.position? k = findKey? es.toArray k := by
  unfold position?
  split
  · exact es.indexes _ (by assumption) k
  · rfl

def valueAt (es : Entries) (n : Nat) : Value := (es.toArray.getD n default).value

def get (es : Entries) (k : Key) : Value :=
  match es.position? k with
  | some n => es.valueAt n
  | none => .nil

/-- Entries with an index if they are many. -/
def ofArray (es : Array Entry) (cleared : Nat) : Entries :=
  if es.size < 64 then { toArray := es, cleared }
  else
    { toArray := es, cleared, index := some (.ofArray es)
      indexes := by simpa using KeyIndex.indexes_ofArray es }

@[simp]
theorem toArray_ofArray (es : Array Entry) (cleared : Nat) : (ofArray es cleared).toArray = es := by
  unfold ofArray
  split <;> rfl

/-- Adds an entry behind all others. -/
def push : Entries → Entry → Entries
  | ⟨es, cleared, none, _⟩, e => ofArray (es.push e) cleared
  | ⟨es, cleared, some m, h⟩, e =>
    let n := es.size
    ⟨es.push e, cleared, some (m.insertIfNew e.key n), by simpa using (h m rfl).push e⟩

@[simp]
theorem toArray_push (es : Entries) (e : Entry) : (es.push e).toArray = es.toArray.push e := by
  unfold push
  split <;> simp

def compact (es : Entries) : Entries := ofArray (es.toArray.filter fun e => !e.value.isNil) 0

@[simp]
theorem toArray_compact (es : Entries) :
    es.compact.toArray = es.toArray.filter fun e => !e.value.isNil :=
  toArray_ofArray ..

/-- Changes the value at a place, keeping count of the cleared entries. -/
def setAt : Entries → Nat → Value → Entries
  | ⟨es, cleared, index, h⟩, n, v =>
    let cleared := match (es.getD n default).value.isNil, v.isNil with
      | false, true => cleared + 1
      | true, false => cleared - 1
      | _, _ => cleared
    ⟨es.modify n fun e => { e with value := v }, cleared, index, fun m hm k => by
      rw [h m hm k]
      refine findKey?_congr (Array.ext (by simp) fun i _ _ => ?_) k
      simp only [Array.getElem_map, Array.getElem_modify]
      split <;> rfl⟩

@[simp]
theorem toArray_setAt (es : Entries) (n : Nat) (v : Value) :
    (es.setAt n v).toArray = es.toArray.modify n fun e => { e with value := v } :=
  rfl

/-- Assigns to a key; a new one takes the place behind all live entries. -/
def set (es : Entries) (k : Key) (v : Value) : Entries :=
  match es.position? k with
  | some n => es.setAt n v
  | none =>
    if v.isNil then es
    else (if 0 < es.cleared then es.compact else es).push ⟨k, v⟩

/-- Removes the entry at a place. The index outlives it only if it is the last, because the others
keep their places then. -/
def removeAt : Entries → Nat → Entries
  | ⟨es, cleared, none, _⟩, n => { toArray := es.eraseIdxIfInBounds n, cleared }
  | ⟨es, cleared, some m, h⟩, n =>
    let k := (es.getD n default).key
    if last : n + 1 = es.size ∧ m[k]? = some n then
      { toArray := es.eraseIdxIfInBounds n, cleared, index := some (m.erase k)
        indexes := by
          have := h m rfl
          rw [← push_eraseIdx_last last.1] at this
          simpa [k] using this.pop (by rw [last.2, size_eraseIdx_last last.1]) }
    else { toArray := es.eraseIdxIfInBounds n, cleared }

@[simp]
theorem toArray_removeAt (es : Entries) (n : Nat) :
    (es.removeAt n).toArray = es.toArray.eraseIdxIfInBounds n := by
  unfold removeAt
  split
  · rfl
  · dsimp only
    split <;> rfl

def remove (es : Entries) (k : Key) : Option Value × Entries :=
  match es.position? k with
  | none => (none, es)
  | some n =>
    let v := es.valueAt n
    let es := es.removeAt n
    if v.isNil then (none, { es with cleared := es.cleared - 1 }) else (some v, es)

def liveCount (es : Entries) : Nat := es.toArray.size - es.cleared

/-- The first live entry at or after a place. -/
def liveFrom (es : Entries) (n : Nat) : Option Entry :=
  go (es.toArray.size - n) n
where
  go : Nat → Nat → Option Entry
    | 0, _ => none
    | left + 1, n =>
      let e := es.toArray.getD n default
      if e.value.isNil then go left (n + 1) else some e

end Entries
end RegisterMachine
