import RegisterMachine.Proofs.Traversal

/-! How a table arranges its keys. Its length is a border of the sequence at 1, 2, …, because nothing that
holds a value is left behind the dense part. Assignments keep the order of the keys: entries are only
dropped or moved into the dense part, and a new one comes behind all others. -/
namespace RegisterMachine
namespace Entries

def keys (es : Entries) : List Key := es.toArray.toList.map Entry.key

theorem position?_eq_none_iff_keys {es : Entries} {k : Key} : es.position? k = none ↔ k ∉ es.keys := by
  simp [position?_eq_none_iff, keys]

theorem keys_remove (es : Entries) (k : Key) : (es.remove k).2.keys.Sublist es.keys := by
  rw [Entries.remove]
  split
  · exact List.Sublist.refl _
  · rename_i n h
    obtain ⟨before, after, eq, len⟩ := split_of_position? h
    have keys : (es.removeAt n).keys.Sublist es.keys := by
      rw [keys, keys, toList_removeAt eq len, eq]
      exact ((List.sublist_cons_self _ _).append_left _).map _
    dsimp only
    split <;> exact keys

/-- A new key comes behind the others, of which cleared ones may be dropped. -/
theorem keys_set_cases (es : Entries) (k : Key) (v : Value) :
    (es.set k v).keys.Sublist es.keys ∨
    (es.position? k = none ∧ v ≠ .nil ∧ ∃ kept, kept.Sublist es.keys ∧ (es.set k v).keys = kept ++ [k]) := by
  rw [Entries.set]
  split
  · rename_i n h
    obtain ⟨before, after, eq, len⟩ := split_of_position? h
    refine .inl ?_
    rw [keys, keys, toList_setAt eq len, eq]
    simp
  · split
    · exact .inl (List.Sublist.refl _)
    · rename_i absent live
      refine .inr ⟨absent, mt Value.isNil_iff.2 live, _, ?_,
        by rw [keys, toArray_push, Array.toList_push, List.map_append]; rfl⟩
      split
      · rw [toArray_compact, Array.toList_filter]
        exact List.filter_sublist.map _
      · exact List.Sublist.refl _

end Entries

namespace Table

section

variable {t : Table}

theorem borderUpTo_le (t : Table) (n : Nat) : t.borderUpTo n ≤ n := by
  induction n with
  | zero => exact le_rfl
  | succ n ih =>
    rw [borderUpTo]
    split
    · exact ih.trans n.le_succ
    · exact le_rfl

theorem borderUpTo_live (t : Table) (n : Nat) :
    t.borderUpTo n = 0 ∨ ∃ m, t.borderUpTo n = m + 1 ∧ t.items.getD m .nil ≠ .nil := by
  induction n with
  | zero => exact .inl rfl
  | succ n ih =>
    rw [borderUpTo]
    split
    · exact ih
    · rename_i live
      exact .inr ⟨n, rfl, mt Value.isNil_iff.2 live⟩

theorem borderUpTo_cleared (t : Table) {m n : Nat} (h : t.borderUpTo n ≤ m) (bound : m < n) :
    t.items.getD m .nil = .nil := by
  induction n with
  | zero => omega
  | succ n ih =>
    rw [borderUpTo] at h
    split at h
    · rename_i cleared
      rcases Nat.lt_succ_iff_lt_or_eq.1 bound with earlier | rfl
      · exact ih h earlier
      · exact Value.isNil_iff.1 cleared
    · omega

theorem getInt_eq_getKey (t : Table) (i : Int64) : t.getInt i = t.getKey (.ofInt i) := rfl

theorem Steady.getInt_place (steady : t.Steady) {n : Nat} (bound : n < t.items.size) :
    t.getInt (Int64.ofInt (n + 1)) = t.items.getD n .nil := by
  have room := steady.neat.room
  rw [getInt_eq_getKey, getKey_of_at (Key.at_ofInt (by omega)) bound]

theorem Steady.getInt_behind (steady : t.Steady) {i : Int64} (next : i.toInt = t.items.size + 1) :
    t.getInt i = .nil := by
  have held : (Key.ofInt i).At t.items.size := ⟨i, rfl, next⟩
  have unplaced : t.place? (.ofInt i) = none :=
    place?_eq_none_iff.2 fun n bound held' => bound.ne (held'.unique held)
  rw [getInt_eq_getKey, getKey_of_place?_none unplaced, steady.settled _ held]

/-- The length of a table is a border: it is zero or an index with a value, and the next index, if there is one
more, has none. The sequence is what the indices up to it hold. -/
theorem length_is_border (reached : t.Reachable) :
    t.border < 2 ^ 63 ∧
    (t.border = 0 ∨ t.getInt (Int64.ofInt t.border) ≠ .nil) ∧
    (∀ i : Int64, i.toInt = t.border + 1 → t.getInt i = .nil) ∧
    t.sequence = (List.range t.border).map fun n : Nat => t.getInt (Int64.ofInt (n + 1)) := by
  have steady := reached.steady
  have le : t.border ≤ t.items.size := t.borderUpTo_le _
  refine ⟨le.trans_lt steady.neat.room, ?_, fun i next => ?_, ?_⟩
  · refine (t.borderUpTo_live t.items.size).imp_right fun ⟨m, eq, live⟩ => ?_
    change t.border = m + 1 at eq
    rw [eq, Int.natCast_succ, steady.getInt_place (by omega)]
    exact live
  · rcases le.lt_or_eq with inside | eq
    · have same : i = Int64.ofInt (t.border + 1) := by rw [← next, Int64.ofInt_toInt]
      rw [same, steady.getInt_place inside]
      exact t.borderUpTo_cleared le_rfl inside
    · exact steady.getInt_behind (eq ▸ next)
  · refine List.ext_getElem (by simp [sequence, le]) fun n bound bound' => ?_
    have inside : n < t.items.size := by simp at bound'; omega
    rw [List.getElem_map, List.getElem_range, steady.getInt_place inside]
    simp [sequence, inside]

/-- The last indices are cleared, one by one from behind, and a value stays behind them. -/
theorem length_is_border_cleared :
    let t := [Op.ofList [.int 1, .int 2], .setInt 5 (.int 5), .setInt 4 (.int 4), .setInt 3 (.int 3),
      .setInt 7 (.int 7), .setInt 5 .nil].foldl Op.apply empty
    t.Reachable ∧ t.items.size = 5 ∧ t.getInt 7 = .int 7 ∧ t.border = 4 ∧ t.getInt 4 ≠ .nil ∧ t.getInt 5 = .nil ∧
      t.sequence = [.int 1, .int 2, .int 3, .int 4] := by
  intro t
  have reached : t.Reachable := Reachable.empty.foldl _
  have border : t.border = 4 := by decide +kernel
  obtain ⟨-, last, behind, sequence⟩ := length_is_border reached
  rw [border] at last behind sequence
  exact ⟨reached, by decide +kernel, by decide +kernel, border, last.resolve_left (by decide), behind 5 (by decide),
    sequence.trans (by decide +kernel)⟩

end

section

variable {α : Type} {a b : α} {l : List α}

theorem pair_sublist_or (ha : a ∈ l) (hb : b ∈ l) (ne : a ≠ b) : [a, b].Sublist l ∨ [b, a].Sublist l := by
  obtain ⟨front, back, rfl⟩ := List.append_of_mem ha
  rcases List.mem_append.1 hb with before | after
  · refine .inr ((List.singleton_sublist.2 before).append (List.singleton_sublist.2 ?_))
    exact List.mem_cons_self
  · replace after : b ∈ back := (List.mem_cons.1 after).resolve_left ne.symm
    exact .inl (((List.singleton_sublist.2 after).cons_cons a).trans (List.sublist_append_right ..))

theorem not_pair_sublist (nodup : l.Nodup) (h : [a, b].Sublist l) : ¬[b, a].Sublist l := by
  induction l with
  | nil => simp at h
  | cons c l ih =>
    rw [List.nodup_cons] at nodup
    intro h'
    cases h with
    | cons _ h =>
      cases h' with
      | cons _ h' => exact ih nodup.2 h h'
      | cons_cons _ h' => exact nodup.1 (h.subset (by simp))
    | cons_cons _ h =>
      cases h' with
      | cons _ h' => exact nodup.1 (h'.subset (by simp))
      | cons_cons _ h' => exact nodup.1 (h.subset (by simp))

end

theorem Walk.run_append (w : Walk) (acts acts' : List Walk.Act) :
    w.run (acts ++ acts') = (w.run acts).bind fun w => w.run acts' := by
  induction acts generalizing w with
  | nil => rfl
  | cons act acts ih =>
    cases act with
    | step =>
      rw [List.cons_append, Walk.run, Walk.run]
      cases w.step with
      | ok w => exact ih w
      | error f => rfl
    | change op => exact ih _

theorem Walk.run_more_steps {w w' : Walk} {n : Nat} (h : w.run (.replicate n .step) = .ok w')
    (finished : w'.finished = true) (m : Nat) : w.run (.replicate (n + m) .step) = .ok w' := by
  rw [List.replicate_add, Walk.run_append, h]
  exact Walk.run_steps_of_finished finished m

/-- A traversal that nothing disturbs gives one key before another. -/
def Before (t : Table) (k k' : Key) : Prop :=
  ∃ n w, Walk.run { table := t } (.replicate n .step) = .ok w ∧ w.finished = true ∧
    [k.value, k'.value].Sublist (w.given.map Prod.fst)

variable {t t' : Table} {k k' : Key} {v : Value}

theorem Steady.exists_walk (steady : t.Steady) :
    ∃ n w, Walk.run { table := t } (.replicate n .step) = .ok w ∧ w.finished = true ∧ w.given = t.pairs :=
  have start : Walk.Past { table := t } [] t.order := ⟨rfl, rfl⟩
  ⟨_, start.steps steady rfl rfl (Nat.lt_succ_self _)⟩

theorem Steady.before_iff (steady : t.Steady) : t.Before k k' ↔ [k, k'].Sublist t.liveKeys := by
  obtain ⟨n, w, run, finished, given⟩ := steady.exists_walk
  have keys : w.given.map Prod.fst = t.liveKeys.map Key.value := by
    rw [given, steady.pairs_eq, List.map_map]
    rfl
  have pair : [k.value, k'.value].Sublist (w.given.map Prod.fst) ↔ [k, k'].Sublist t.liveKeys := by
    rw [keys]
    refine ⟨fun h => ?_, fun h => h.map Key.value⟩
    obtain ⟨ks, sub, eq⟩ := List.sublist_map_iff.1 h
    have same : [k, k'] = ks := List.map_injective_iff.2 (fun _ _ => Key.ext_value) eq
    exact same ▸ sub
  constructor
  · rintro ⟨n', w', run', finished', sub⟩
    have eq := Walk.run_more_steps run finished n'
    rw [Nat.add_comm, Walk.run_more_steps run' finished' n] at eq
    obtain rfl : w' = w := Except.ok.inj eq
    exact pair.1 sub
  · exact fun sub => ⟨n, w, run, finished, pair.2 sub⟩

theorem Steady.before_iff_order (steady : t.Steady) :
    t.Before k k' ↔ [k, k'].Sublist t.order ∧ t.getKey k ≠ .nil ∧ t.getKey k' ≠ .nil := by
  rw [steady.before_iff, steady.liveKeys_eq]
  constructor
  · intro sub
    have live := fun a (mem : a ∈ [k, k']) => List.of_mem_filter (sub.subset mem)
    simp only [List.forall_mem_cons, Bool.not_eq_true', Value.isNil_eq_false_iff] at live
    exact ⟨sub.trans List.filter_sublist, live.1, live.2.1⟩
  · rintro ⟨sub, live, live'⟩
    have kept := sub.filter fun k => !(t.getKey k).isNil
    simpa [Value.isNil_eq_false_iff.2 live, Value.isNil_eq_false_iff.2 live'] using kept

theorem Steady.before_or (steady : t.Steady) (live : t.getKey k ≠ .nil) (live' : t.getKey k' ≠ .nil)
    (ne : k ≠ k') : t.Before k k' ↔ ¬t.Before k' k := by
  have mem := (steady.neat.mem_liveKeys_iff k).2 live
  have mem' := (steady.neat.mem_liveKeys_iff k').2 live'
  rw [steady.before_iff, steady.before_iff]
  exact ⟨not_pair_sublist steady.neat.nodup_liveKeys,
    (pair_sublist_or mem mem' ne).resolve_right⟩

def placeKeys (n : Nat) : List Key := (List.range n).map fun n : Nat => .ofInt (Int64.ofInt (n + 1))

theorem placeKeys_add (m n : Nat) : placeKeys (m + n) =
    placeKeys m ++ (List.range n).map fun i : Nat => .ofInt (Int64.ofInt ((m + i : Nat) + 1)) := by
  rw [placeKeys, List.range_add, List.map_append, List.map_map]
  rfl

theorem order_eq (t : Table) : t.order = placeKeys t.items.size ++ t.entries.keys := rfl

theorem keys_migrate (n : Nat) (t : Table) : (t.migrate n).entries.keys.Sublist t.entries.keys := by
  induction n generalizing t with
  | zero => exact List.Sublist.refl _
  | succ n ih =>
    rw [migrate_succ]
    split_ifs
    · exact List.Sublist.refl _
    · exact Entries.keys_remove ..
    · exact (ih _).trans (Entries.keys_remove ..)

/-- What an assignment makes of the keys in their order: of the entries, some are dropped or moved into the
dense part, or a key that was in neither part comes behind the others. -/
theorem keys_setKey (t : Table) (k : Key) (v : Value) :
    (t.setKey k v).entries.keys.Sublist t.entries.keys ∨
    (t.place? k = none ∧ t.entries.position? k = none ∧ v ≠ .nil ∧
      ∃ kept, kept.Sublist t.entries.keys ∧ (t.setKey k v).entries.keys = kept ++ [k]) := by
  obtain ⟨n, -, eq⟩ | ⟨-, -, eq⟩ | ⟨unplaced, -, eq⟩ := setKey_cases t k v <;> rw [eq]
  · exact .inl (List.Sublist.refl _)
  · exact .inl ((keys_migrate ..).trans (Entries.keys_remove ..))
  · exact (Entries.keys_set_cases t.entries k v).imp_right fun new => ⟨unplaced, new⟩

/-- A key that keeps a value, and is not moved from the entries into the dense part. -/
structure Stays (t t' : Table) (k : Key) : Prop where
  live : t.getKey k ≠ .nil
  live' : t'.getKey k ≠ .nil
  unmoved : ¬(t.place? k = none ∧ t'.place? k ≠ none)

theorem getKey_of_new (h : t.place? k = none) (h' : t.entries.position? k = none) :
    t.getKey k = .nil := by
  rw [getKey_of_place?_none h, Entries.get_of_position?_none h']

theorem not_stays_of_added {n : Nat} (size : t.items.size ≤ n) (bound : n < t'.items.size)
    (room : t'.items.size < 2 ^ 63) : ¬Stays t t' (.ofInt (Int64.ofInt (n + 1))) := by
  have held : Key.At (.ofInt (Int64.ofInt (n + 1))) n := Key.at_ofInt (by omega)
  refine fun stays => stays.unmoved ⟨place?_eq_none_iff.2 fun m small held' => ?_, ?_⟩
  · have := held.unique held'
    omega
  · rw [place?_eq_some_iff.2 ⟨held, bound⟩]
    exact Option.some_ne_none n

open Classical in
theorem Neat.stays_sublist (neat : t.Neat) (k : Key) (v : Value) :
    ((t.setKey k v).order.filter fun k' => Stays t (t.setKey k v) k').Sublist t.order := by
  rw [order_eq, order_eq, List.filter_append]
  refine List.Sublist.append ?_ ?_
  · obtain ⟨more, eq⟩ := Nat.exists_eq_add_of_le (size_le_setKey t k v)
    rw [eq, placeKeys_add, List.filter_append]
    have added : ((List.range more).map fun i : Nat => Key.ofInt (Int64.ofInt ((t.items.size + i : Nat) + 1))).filter
        (fun k' => Stays t (t.setKey k v) k') = [] := by
      refine List.filter_eq_nil_iff.2 fun k' mem => ?_
      obtain ⟨n, bound, rfl⟩ := List.mem_map.1 mem
      have := List.mem_range.1 bound
      exact mt of_decide_eq_true (not_stays_of_added (Nat.le_add_right _ n) (by omega) (neat.neat_setKey k v).room)
    rw [added, List.append_nil]
    exact List.filter_sublist
  · obtain sub | ⟨unplaced, absent, -, kept, sub, eq⟩ := keys_setKey t k v
    · exact List.filter_sublist.trans sub
    · have new : ¬Stays t (t.setKey k v) k := fun stays => stays.live (getKey_of_new unplaced absent)
      rw [eq, List.filter_append, List.filter_singleton]
      simpa [new] using List.filter_sublist.trans sub

open Classical in
/-- Keys that stay keep their order. -/
theorem Steady.before_setKey_iff (steady : t.Steady) {a b : Key}
    (ha : Stays t (t.setKey k v) a) (hb : Stays t (t.setKey k v) b) (ne : a ≠ b) :
    t.Before a b ↔ (t.setKey k v).Before a b := by
  have steady' := steady.setKey k v
  have back {a b : Key} (ha : Stays t (t.setKey k v) a) (hb : Stays t (t.setKey k v) b)
      (h : (t.setKey k v).Before a b) : t.Before a b := by
    have sub := (steady'.before_iff_order.1 h).1.filter fun k' => Stays t (t.setKey k v) k'
    rw [List.filter_eq_self.2 (by simp [ha, hb])] at sub
    exact steady.before_iff_order.2 ⟨sub.trans (steady.neat.stays_sublist k v), ha.live, hb.live⟩
  refine ⟨fun h => ?_, back ha hb⟩
  rw [steady'.before_or ha.live' hb.live' ne]
  exact fun h' => (steady.before_or ha.live hb.live ne).1 h (back hb ha h')

/-- A key that is new in the entries comes behind all others. -/
theorem Steady.before_setKey_new (steady : t.Steady) {a b : Key}
    (absent : t.entries.position? b = none) (present : (t.setKey k v).entries.position? b ≠ none)
    (live : (t.setKey k v).getKey a ≠ .nil) (ne : a ≠ b) : (t.setKey k v).Before a b := by
  have steady' := steady.setKey k v
  rw [ne_eq, Entries.position?_eq_none_iff_keys, not_not] at present
  rw [Entries.position?_eq_none_iff_keys] at absent
  obtain sub | ⟨-, -, given, kept, sub, eq⟩ := keys_setKey t k v
  · exact absurd (sub.subset present) absent
  · obtain rfl : b = k := by
      rw [eq, List.mem_append, List.mem_singleton] at present
      exact present.resolve_left (mt (sub.subset ·) absent)
    have order : (t.setKey b v).order = (placeKeys (t.setKey b v).items.size ++ kept) ++ [b] := by
      rw [order_eq, eq, List.append_assoc]
    have mem := steady'.mem_order live
    rw [order, List.mem_append] at mem
    refine steady'.before_iff_order.2 ⟨?_, live, ?_⟩
    · rw [order]
      exact (List.singleton_sublist.2 (mem.resolve_right (by simpa using ne))).append (List.Sublist.refl _)
    · rwa [(steady.neat.setKey b v).2, if_pos rfl]

/-- Whether an operation assigns to one key. -/
def Op.assigns : Op → Bool
  | .ofList _ => false
  | _ => true

theorem Op.apply_cases {op : Op} (assigns : op.assigns) (t : Table) :
    op.apply t = t ∨ ∃ k v, op.apply t = t.setKey k v := by
  cases op with
  | set k v =>
    simp only [Op.apply, Table.set]
    cases Key.ofValue k with
    | ok k => exact .inr ⟨k, v, rfl⟩
    | error f => exact .inl rfl
  | setInt i v => exact .inr ⟨.ofInt i, v, rfl⟩
  | setStr s v => exact .inr ⟨.ofString s, v, rfl⟩
  | ofList vs => cases assigns

/-- An assignment keeps the order of the keys that it leaves with a value and does not move into the dense part. A key
that had no entry comes behind all others. -/
theorem order_stable (reached : t.Reachable) {op : Op} (assigns : op.assigns) :
    (∀ k k' : Key, k ≠ k' → Stays t (op.apply t) k → Stays t (op.apply t) k' →
      (t.Before k k' ↔ (op.apply t).Before k k') ∧ (t.Before k k' ↔ ¬t.Before k' k)) ∧
    ∀ k : Key, t.entries.position? k = none → (op.apply t).entries.position? k ≠ none →
      ∀ k' ≠ k, (op.apply t).getKey k' ≠ .nil → (op.apply t).Before k' k := by
  have steady := reached.steady
  obtain eq | ⟨k, v, eq⟩ := Op.apply_cases assigns t
  · rw [eq]
    exact ⟨fun k k' ne stays stays' => ⟨Iff.rfl, steady.before_or stays.live stays'.live ne⟩,
      fun k absent present => absurd absent present⟩
  · rw [eq]
    exact ⟨fun k k' ne stays stays' =>
        ⟨steady.before_setKey_iff stays stays' ne, steady.before_or stays.live stays'.live ne⟩,
      fun k absent present k' ne live => steady.before_setKey_new absent present live ne⟩

/-- A new key, for which a cleared one is dropped from between two others. -/
theorem order_stable_compacted :
    let t := [Op.setStr "a" (.int 1), .setStr "b" (.int 2), .setInt 2 (.int 3), .setStr "c" (.int 4),
      .setStr "b" .nil].foldl Op.apply empty
    let op := Op.setStr "d" (.int 5)
    t.Reachable ∧ op.assigns ∧
      t.entries.position? (.ofString "b") = some 1 ∧ (op.apply t).entries.position? (.ofString "b") = none ∧
      t.Before (.ofString "a") (.ofString "c") ∧ (op.apply t).Before (.ofString "a") (.ofString "c") ∧
      (op.apply t).Before (.ofString "c") (.ofString "d") := by
  intro t op
  have reached : t.Reachable := Reachable.empty.foldl _
  have assigns : op.assigns := rfl
  obtain ⟨kept, new⟩ := order_stable reached assigns
  have before : t.Before (.ofString "a") (.ofString "c") :=
    reached.steady.before_iff_order.2 ⟨by decide +kernel, by decide +kernel, by decide +kernel⟩
  have first : Stays t (op.apply t) (.ofString "a") :=
    ⟨by decide +kernel, by decide +kernel, by decide +kernel⟩
  have last : Stays t (op.apply t) (.ofString "c") :=
    ⟨by decide +kernel, by decide +kernel, by decide +kernel⟩
  refine ⟨reached, assigns, by decide +kernel, by decide +kernel, before, ?_, ?_⟩
  · exact (kept _ _ (by decide +kernel) first last).1.1 before
  · exact new _ (by decide +kernel) (by decide +kernel) _ (by decide +kernel) (by decide +kernel)

end Table
end RegisterMachine
