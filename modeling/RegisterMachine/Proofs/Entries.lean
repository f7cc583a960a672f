import Mathlib.Data.List.Nodup
import RegisterMachine.Table.Entries

/-! What entries hold. As long as every key has one entry and the cleared entries are counted, assigning
to a key or removing it changes the value of that key alone, and the count of the live entries is the
number of keys that hold a value. -/
namespace RegisterMachine

theorem Value.isNil_iff {v : Value} : v.isNil = true ↔ v = .nil := by
  cases v <;> simp [isNil]

theorem Value.isNil_eq_false_iff {v : Value} : v.isNil = false ↔ v ≠ .nil := by
  rw [← Bool.not_eq_true, isNil_iff]

theorem Value.eq_of_live {v w : Value} (h : ∀ u : Value, u ≠ .nil → (v = u ↔ w = u)) : v = w := by
  by_cases hv : v = .nil
  · by_contra hw
    exact hw ((h w fun h => hw (hv.trans h.symm)).2 rfl)
  · exact ((h v hv).1 rfl).symm

namespace Entries

/-- Every key has one entry at most, and the cleared entries are counted. -/
structure Tidy (es : Entries) : Prop where
  nodup : (es.toArray.toList.map Entry.key).Nodup
  cleared : es.cleared = es.toArray.toList.countP fun e => e.value.isNil

theorem tidy_empty : empty.Tidy := ⟨by simp [empty], by simp [empty]⟩

variable {es : Entries} {k k' : Key} {n : Nat} {v w : Value}

theorem position?_eq_none_iff : es.position? k = none ↔ ∀ e ∈ es.toArray.toList, e.key ≠ k := by
  rw [position?_eq_findKey?, findKey?, Array.findIdx?_eq_none_iff]
  simp

theorem split_of_position? (h : es.position? k = some n) :
    ∃ before after, es.toArray.toList = before ++ ⟨k, es.valueAt n⟩ :: after ∧ before.length = n := by
  rw [position?_eq_findKey?, findKey?, Array.findIdx?_eq_some_iff_getElem] at h
  obtain ⟨bound, found, -⟩ := h
  have bound' : n < es.toArray.toList.length := by simpa using bound
  have entry : es.toArray.toList[n] = ⟨k, es.valueAt n⟩ := by
    have key : es.toArray[n].key = k := by simpa using found
    simp [valueAt, bound, ← key]
  refine ⟨es.toArray.toList.take n, es.toArray.toList.drop (n + 1), ?_, ?_⟩
  · rw [← entry, ← List.drop_eq_getElem_cons bound', List.take_append_drop]
  · rw [List.length_take]
    omega

theorem get_of_position? (h : es.position? k = some n) : es.get k = es.valueAt n := by
  simp [get, h]

theorem get_of_position?_none (h : es.position? k = none) : es.get k = .nil := by
  simp [get, h]

namespace Tidy

/-- The entries other than the one of a key have other keys. -/
theorem nodup_split (tidy : es.Tidy) {before after : List Entry}
    (eq : es.toArray.toList = before ++ ⟨k, w⟩ :: after) :
    k ∉ (before ++ after).map Entry.key ∧ ((before ++ after).map Entry.key).Nodup := by
  have nodup := tidy.nodup
  rw [eq, List.map_append, List.map_cons, List.nodup_middle, List.nodup_cons] at nodup
  simpa only [List.map_append] using nodup

theorem ne_of_split (tidy : es.Tidy) {before after : List Entry}
    (eq : es.toArray.toList = before ++ ⟨k, w⟩ :: after) (h : ⟨k', v⟩ ∈ before ++ after) : k' ≠ k := by
  rintro rfl
  exact (tidy.nodup_split eq).1 (List.mem_map_of_mem h)

theorem get_eq_iff (tidy : es.Tidy) (hv : v ≠ .nil) :
    es.get k = v ↔ ⟨k, v⟩ ∈ es.toArray.toList := by
  cases h : es.position? k with
  | none =>
    have absent := position?_eq_none_iff.1 h
    simp only [get, h]
    exact ⟨fun h => absurd h.symm hv, fun mem => absurd rfl (absent _ mem)⟩
  | some n =>
    obtain ⟨before, after, eq, -⟩ := split_of_position? h
    rw [get_of_position? h, eq]
    constructor
    · rintro rfl
      simp
    · intro mem
      rw [List.perm_middle.mem_iff, List.mem_cons] at mem
      obtain same | other := mem
      · exact (Entry.mk.inj same).2.symm
      · exact absurd rfl (tidy.ne_of_split eq other)

/-- Two lots of entries read alike if they have the same live entries. -/
theorem get_congr {es' : Entries} (tidy : es.Tidy) (tidy' : es'.Tidy)
    (h : ∀ v, v ≠ .nil → (⟨k, v⟩ ∈ es.toArray.toList ↔ ⟨k', v⟩ ∈ es'.toArray.toList)) :
    es.get k = es'.get k' :=
  Value.eq_of_live fun v hv => by rw [tidy.get_eq_iff hv, tidy'.get_eq_iff hv, h v hv]

end Tidy

theorem cleared_ofArray (es : Array Entry) (n : Nat) : (ofArray es n).cleared = n := by
  rw [ofArray]
  split <;> rfl

theorem cleared_push (es : Entries) (e : Entry) : (es.push e).cleared = es.cleared := by
  rw [push.eq_def]
  split
  · exact cleared_ofArray ..
  · rfl

/-- A value that is written over clears its entry or brings it back. -/
theorem cleared_setAt (es : Entries) (n : Nat) (v : Value) : (es.setAt n v).cleared =
    if (es.valueAt n).isNil = v.isNil then es.cleared
    else if v.isNil then es.cleared + 1 else es.cleared - 1 := by
  obtain ⟨es, cleared, index, h⟩ := es
  simp only [setAt, valueAt]
  cases (es.getD n default).value.isNil <;> cases v.isNil <;> rfl

theorem cleared_removeAt (es : Entries) (n : Nat) : (es.removeAt n).cleared = es.cleared := by
  rw [removeAt.eq_def]
  split
  · rfl
  · dsimp only
    split <;> rfl

theorem toList_setAt {before after : List Entry}
    (eq : es.toArray.toList = before ++ ⟨k, w⟩ :: after) (len : before.length = n) :
    (es.setAt n v).toArray.toList = before ++ ⟨k, v⟩ :: after := by
  subst len
  rw [toArray_setAt, Array.toList_modify, eq, List.modify_eq_take_cons_drop]
  · simp
  · simp

theorem toList_removeAt {before after : List Entry}
    (eq : es.toArray.toList = before ++ ⟨k, w⟩ :: after) (len : before.length = n) :
    (es.removeAt n).toArray.toList = before ++ after := by
  subst len
  rw [toArray_removeAt, Array.toList_eraseIdxIfInBounds, eq,
    List.eraseIdx_append_of_length_le (Nat.le_refl _)]
  simp

theorem absent_compact (absent : ∀ e ∈ es.toArray.toList, e.key ≠ k) :
    ∀ e ∈ es.compact.toArray.toList, e.key ≠ k := by
  intro e mem
  rw [toArray_compact, Array.toList_filter] at mem
  exact absent e (List.mem_of_mem_filter mem)

theorem mem_set (es : Entries) (k : Key) (v : Value) {e : Entry}
    (mem : e ∈ (es.set k v).toArray.toList) : e.key = k ∨ e ∈ es.toArray.toList := by
  rw [Entries.set] at mem
  split at mem
  · rename_i n h
    obtain ⟨before, after, eq, len⟩ := split_of_position? h
    rw [toList_setAt eq len, List.perm_middle.mem_iff, List.mem_cons] at mem
    rw [eq, List.perm_middle.mem_iff]
    obtain rfl | mem := mem
    · exact .inl rfl
    · exact .inr (List.mem_cons_of_mem _ mem)
  · split at mem
    · exact .inr mem
    · rw [toArray_push, Array.toList_push, List.mem_append, List.mem_singleton] at mem
      obtain mem | rfl := mem
      · split at mem
        · rw [toArray_compact, Array.toList_filter] at mem
          exact .inr (List.mem_of_mem_filter mem)
        · exact .inr mem
      · exact .inl rfl

theorem remove_fst (es : Entries) (k : Key) :
    (es.remove k).1 = if (es.get k).isNil then none else some (es.get k) := by
  rw [Entries.remove]
  split
  · rename_i h
    simp [get, h, Value.isNil]
  · rename_i n h
    rw [get_of_position? h]
    dsimp only
    split <;> rfl

namespace Tidy

theorem compact (tidy : es.Tidy) : es.compact.Tidy where
  nodup := by
    rw [toArray_compact, Array.toList_filter]
    exact tidy.nodup.sublist (List.filter_sublist.map _)
  cleared := by
    rw [Entries.compact, cleared_ofArray, toArray_ofArray, Array.toList_filter, List.countP_filter]
    simp

theorem push (tidy : es.Tidy) (absent : ∀ e ∈ es.toArray.toList, e.key ≠ k) (hv : v ≠ .nil) :
    (es.push ⟨k, v⟩).Tidy where
  nodup := by
    rw [toArray_push, Array.toList_push, List.map_append, List.nodup_append_comm]
    exact List.nodup_cons.2 ⟨by simpa using absent, tidy.nodup⟩
  cleared := by
    have live : v.isNil = false := by simpa using mt Value.isNil_iff.1 hv
    rw [cleared_push, toArray_push, Array.toList_push, List.countP_append, tidy.cleared]
    simp [live]

theorem setAt (tidy : es.Tidy) (h : es.position? k = some n) : (es.setAt n v).Tidy := by
  obtain ⟨before, after, eq, len⟩ := split_of_position? h
  obtain ⟨absent, nodup⟩ := tidy.nodup_split eq
  have eq' := toList_setAt (v := v) eq len
  refine ⟨?_, ?_⟩
  · rw [eq', List.map_append, List.map_cons, List.nodup_middle, ← List.map_append]
    exact List.nodup_cons.2 ⟨absent, nodup⟩
  · have count := tidy.cleared
    rw [eq, List.countP_append, List.countP_cons] at count
    rw [eq', cleared_setAt, List.countP_append, List.countP_cons]
    cases hw : (es.valueAt n).isNil <;> cases hv : v.isNil <;>
      simp only [hw, Bool.false_eq_true, reduceCtorEq, if_true, if_false] at count ⊢ <;> omega

theorem get_compact (tidy : es.Tidy) (k : Key) : es.compact.get k = es.get k := by
  refine tidy.compact.get_congr tidy fun v hv => ?_
  rw [toArray_compact, Array.toList_filter, List.mem_filter]
  simp [Value.isNil_eq_false_iff.2 hv]

theorem get_push (tidy : es.Tidy) (absent : ∀ e ∈ es.toArray.toList, e.key ≠ k) (hv : v ≠ .nil)
    (k' : Key) : (es.push ⟨k, v⟩).get k' = if k' = k then v else es.get k' := by
  refine Value.eq_of_live fun u hu => ?_
  rw [(tidy.push absent hv).get_eq_iff hu, toArray_push, Array.toList_push, List.mem_append,
    List.mem_singleton, Entry.mk.injEq]
  split
  · rename_i same
    subst same
    exact ⟨fun h => h.elim (fun mem => absurd rfl (absent _ mem)) fun h => h.2.symm,
      fun h => .inr ⟨rfl, h.symm⟩⟩
  · rename_i differs
    rw [tidy.get_eq_iff hu]
    simp only [differs, false_and, or_false]

theorem get_setAt (tidy : es.Tidy) (h : es.position? k = some n) (k' : Key) :
    (es.setAt n v).get k' = if k' = k then v else es.get k' := by
  obtain ⟨before, after, eq, len⟩ := split_of_position? h
  refine Value.eq_of_live fun u hu => ?_
  rw [(tidy.setAt h).get_eq_iff hu, toList_setAt eq len, List.perm_middle.mem_iff, List.mem_cons,
    Entry.mk.injEq]
  split
  · rename_i same
    subst same
    exact ⟨fun h => h.elim (fun h => h.2.symm) fun mem => absurd rfl (tidy.ne_of_split eq mem),
      fun h => .inl ⟨rfl, h.symm⟩⟩
  · rename_i differs
    rw [tidy.get_eq_iff hu, eq, List.perm_middle.mem_iff, List.mem_cons, Entry.mk.injEq]
    simp only [differs, false_and, false_or]

theorem set (tidy : es.Tidy) (k : Key) (v : Value) : (es.set k v).Tidy := by
  rw [Entries.set]
  split
  next n h => exact tidy.setAt h
  next h =>
    have absent := position?_eq_none_iff.1 h
    split
    · exact tidy
    · rename_i live
      have hv : v ≠ .nil := mt Value.isNil_iff.2 live
      split
      · exact tidy.compact.push (absent_compact absent) hv
      · exact tidy.push absent hv

theorem get_set (tidy : es.Tidy) (k : Key) (v : Value) (k' : Key) :
    (es.set k v).get k' = if k' = k then v else es.get k' := by
  rw [Entries.set]
  split
  next n h => exact tidy.get_setAt h k'
  next h =>
    have absent := position?_eq_none_iff.1 h
    split
    · rename_i cleared
      split
      · rename_i same
        rw [Value.isNil_iff.1 cleared, same, get_of_position?_none h]
      · rfl
    · rename_i live
      have hv : v ≠ .nil := mt Value.isNil_iff.2 live
      split
      · rw [tidy.compact.get_push (absent_compact absent) hv, tidy.get_compact]
      · exact tidy.get_push absent hv k'

theorem remove (tidy : es.Tidy) (k : Key) : (es.remove k).2.Tidy := by
  rw [Entries.remove]
  split
  · exact tidy
  · rename_i n h
    obtain ⟨before, after, eq, len⟩ := split_of_position? h
    obtain ⟨absent, nodup⟩ := tidy.nodup_split eq
    have eq' := toList_removeAt eq len
    have count := tidy.cleared
    rw [eq, List.countP_append, List.countP_cons] at count
    dsimp only
    split
    · rename_i cleared
      refine ⟨by rwa [eq'], ?_⟩
      dsimp only
      rw [eq', cleared_removeAt, count, List.countP_append, if_pos cleared]
      omega
    · rename_i live
      refine ⟨by rwa [eq'], ?_⟩
      rw [eq', cleared_removeAt, count, List.countP_append, if_neg live]
      omega

theorem mem_remove_iff (tidy : es.Tidy) {e : Entry} :
    e ∈ (es.remove k).2.toArray.toList ↔ e ∈ es.toArray.toList ∧ e.key ≠ k := by
  cases h : es.position? k with
  | none =>
    simp only [Entries.remove, h]
    exact ⟨fun mem => ⟨mem, position?_eq_none_iff.1 h e mem⟩, fun mem => mem.1⟩
  | some n =>
    obtain ⟨before, after, eq, len⟩ := split_of_position? h
    have eq' : (es.remove k).2.toArray.toList = before ++ after := by
      simp only [Entries.remove, h]
      split <;> exact toList_removeAt eq len
    rw [eq', eq, List.perm_middle.mem_iff, List.mem_cons]
    constructor
    · intro mem
      exact ⟨.inr mem, tidy.ne_of_split eq (v := e.value) mem⟩
    · rintro ⟨rfl | mem, ne⟩
      · exact absurd rfl ne
      · exact mem

theorem get_remove (tidy : es.Tidy) (k k' : Key) :
    (es.remove k).2.get k' = if k' = k then .nil else es.get k' := by
  refine Value.eq_of_live fun u hu => ?_
  rw [(tidy.remove k).get_eq_iff hu, tidy.mem_remove_iff]
  split
  · rename_i same
    exact ⟨fun mem => absurd same mem.2, fun h => absurd h.symm hu⟩
  · rename_i ne
    rw [tidy.get_eq_iff hu]
    exact ⟨fun mem => mem.1, fun mem => ⟨mem, ne⟩⟩

end Tidy

theorem Tidy.liveCount (tidy : es.Tidy) :
    es.liveCount = es.toArray.toList.countP fun e => !e.value.isNil := by
  have all := List.length_eq_countP_add_countP (l := es.toArray.toList) fun e => e.value.isNil
  rw [Entries.liveCount, tidy.cleared, ← Array.length_toList, all]
  simp

end Entries

end RegisterMachine
