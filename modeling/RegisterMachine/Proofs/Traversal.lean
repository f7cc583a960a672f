import RegisterMachine.Proofs.Contents

/-! Traversals of a table. Its keys stand in one order, those of the dense part first and then the
others as they came in, cleared ones included, and a traversal goes along that order. Clearing a key, or
changing a value that is there, moves no key; so a traversal that goes on through such changes meets no
key twice and leaves out none that keeps a value. -/
namespace RegisterMachine

theorem Key.ofValue_value (k : Key) : Key.ofValue k.value = .ok k := by
  obtain ⟨v, hv⟩ := k
  cases v with
  | nil => simp [Value.isKey] at hv
  | float x =>
    simp only [Value.isKey, Bool.and_eq_true, Bool.not_eq_true', Option.isNone_iff_eq_none] at hv
    simp only [Key.ofValue]
    split
    · simp_all
    · simp [hv.1]
  | _ => rfl

theorem Key.value_ne_nil (k : Key) : k.value ≠ .nil := by
  intro h
  simpa [h, Value.isKey] using k.isKey

namespace Entries

variable {es : Entries} {k : Key}

theorem size_remove (live : es.get k ≠ .nil) :
    (es.remove k).2.toArray.size + 1 = es.toArray.size := by
  cases h : es.position? k with
  | none => exact absurd (get_of_position?_none h) live
  | some n =>
    obtain ⟨before, after, eq, len⟩ := split_of_position? h
    have eq' : (es.remove k).2.toArray.toList = before ++ after := by
      simp only [Entries.remove, h]
      split <;> exact toList_removeAt eq len
    rw [← Array.length_toList, ← Array.length_toList, eq', eq]
    simp
    omega

theorem Tidy.get_of_mem (tidy : es.Tidy) {e : Entry} (mem : e ∈ es.toArray.toList) :
    es.get e.key = e.value := by
  by_cases cleared : e.value = .nil
  · by_contra other
    rw [cleared] at other
    have same := List.inj_on_of_nodup_map tidy.nodup ((tidy.get_eq_iff other).1 rfl) mem rfl
    exact other (by rw [← cleared, ← same])
  · exact (tidy.get_eq_iff cleared).2 mem

theorem Tidy.position?_of_keys (tidy : es.Tidy) {before after : List Key}
    (h : es.toArray.toList.map Entry.key = before ++ k :: after) :
    es.position? k = some before.length := by
  cases found : es.position? k with
  | none =>
    have listed : k ∈ es.toArray.toList.map Entry.key := by simp [h]
    obtain ⟨e, mem, same⟩ := List.mem_map.1 listed
    exact absurd same (position?_eq_none_iff.1 found e mem)
  | some n =>
    obtain ⟨front, back, eq, len⟩ := split_of_position? found
    have nodup := tidy.nodup
    rw [h] at nodup
    have keys : before ++ k :: after = front.map Entry.key ++ k :: back.map Entry.key := by
      rw [← h, eq]
      simp
    have here : (before ++ k :: after)[n]? = some k := by
      rw [keys, List.getElem?_append_right (by simp [len])]
      simp [len]
    have there : (before ++ k :: after)[before.length]? = some k := by simp
    obtain ⟨_, here⟩ := List.getElem?_eq_some_iff.1 here
    obtain ⟨_, there⟩ := List.getElem?_eq_some_iff.1 there
    exact congrArg some (nodup.getElem_inj_iff.1 (here.trans there.symm))

theorem keys_set {v : Value} (h : v = .nil ∨ es.get k ≠ .nil) :
    (es.set k v).toArray.toList.map Entry.key = es.toArray.toList.map Entry.key := by
  rw [Entries.set]
  split
  · rename_i n h
    obtain ⟨before, after, eq, len⟩ := split_of_position? h
    rw [toList_setAt eq len, eq]
    simp
  · rename_i absent
    rw [get_of_position?_none absent] at h
    have cleared : v = .nil := by simpa using h
    simp [cleared, Value.isNil]

theorem liveFrom_eq (es : Entries) (n : Nat) :
    es.liveFrom n = (es.toArray.toList.drop n).find? fun e => !e.value.isNil := by
  have (left n : Nat) (h : left = es.toArray.size - n) :
      liveFrom.go es left n = (es.toArray.toList.drop n).find? fun e => !e.value.isNil := by
    induction left generalizing n with
    | zero =>
      rw [List.drop_eq_nil_of_le (by simp; omega)]
      rfl
    | succ left ih =>
      have bound : n < es.toArray.size := by omega
      rw [List.drop_eq_getElem_cons (by simpa using bound), List.find?_cons, liveFrom.go,
        ih (n + 1) (by omega)]
      cases cleared : es.toArray[n].value.isNil <;> simp [bound, cleared]
  exact this _ n rfl

end Entries

namespace Table

variable {t : Table} {k : Key} {n : Nat} {v : Value}

/-- No entry that holds a value continues the dense part. -/
def Settled (t : Table) : Prop := ∀ k : Key, k.At t.items.size → t.entries.get k = .nil

theorem Neat.settled_migrate (neat : t.Neat) (enough : t.entries.toArray.size ≤ n) : (t.migrate n).Settled := by
  induction n generalizing t with
  | zero =>
    have none : t.entries.toArray = #[] := by simpa using enough
    change t.Settled
    intro k _
    exact Entries.get_of_position?_none (Entries.position?_eq_none_iff.2 (by simp [none]))
  | succ n ih =>
    rw [migrate_succ]
    split_ifs with full cleared
    · -- no key continues a dense part that has a place for each
      intro k held
      exact absurd (isFull_eq_false_iff.2 held.lt) (by simp [full])
    · intro k held
      have same : k = .ofInt t.nextIndex := eq_nextIndex held
      simp [same, neat.tidy.get_remove]
    · have fewer := Entries.size_remove (mt Value.isNil_iff.2 cleared)
      refine ih (neat.extend (at_nextIndex (Bool.eq_false_iff.2 full)) _) ?_
      simp only [Table.extend]
      omega

theorem Neat.settled_setKey (neat : t.Neat) (settled : t.Settled) (k : Key) (v : Value) : (t.setKey k v).Settled := by
  obtain ⟨n, -, eq⟩ | ⟨next, -, eq⟩ | ⟨-, guard, eq⟩ := setKey_cases t k v <;> rw [eq]
  · simpa [Settled] using settled
  · exact (neat.extend next v).settled_migrate le_rfl
  · intro k' held
    rw [neat.tidy.get_set]
    split
    · rename_i same
      exact guard (same ▸ held)
    · exact settled k' held

/-- A table in order, with nothing left to move. -/
structure Steady (t : Table) : Prop where
  neat : t.Neat
  settled : t.Settled

theorem steady_empty : empty.Steady where
  neat := neat_empty
  settled k _ :=
    Entries.get_of_position?_none (Entries.position?_eq_none_iff.2 (by simp [empty, Entries.empty]))

theorem Steady.setKey (steady : t.Steady) (k : Key) (v : Value) : (t.setKey k v).Steady :=
  ⟨steady.neat.neat_setKey k v, steady.neat.settled_setKey steady.settled k v⟩

theorem Steady.setFrom (steady : t.Steady) (first : Nat) (vs : List Value) : (t.setFrom first vs).Steady := by
  induction vs generalizing t first with
  | nil => exact steady
  | cons v vs ih => exact ih (steady.setKey (.ofInt _) v) (first + 1)

theorem Steady.setMetatable (steady : t.Steady) (metatable : Option (Ref .table)) : { t with metatable }.Steady :=
  ⟨⟨steady.neat.tidy, steady.neat.apart, steady.neat.room⟩, steady.settled⟩

theorem Steady.apply (steady : t.Steady) (op : Op) : (op.apply t).Steady := by
  cases op with
  | set k v =>
    simp only [Op.apply, Table.set]
    cases Key.ofValue k with
    | ok k => exact steady.setKey k v
    | error => exact steady
  | setInt i v => exact steady.setKey (.ofInt i) v
  | setStr s v => exact steady.setKey (.ofString s) v
  | ofList vs => exact steady_empty.setFrom 1 vs

inductive Reachable : Table → Prop
  | empty : Reachable empty
  | apply {t : Table} (op : Op) : Reachable t → Reachable (op.apply t)

theorem Reachable.steady (h : t.Reachable) : t.Steady := by
  induction h with
  | empty => exact steady_empty
  | apply op _ ih => exact ih.apply op

theorem Reachable.foldl (reached : t.Reachable) (ops : List Op) : (ops.foldl Op.apply t).Reachable := by
  induction ops generalizing t with
  | nil => exact reached
  | cons op ops ih => exact ih (.apply op reached)

/-- The dense part with its keys. -/
def itemFields (t : Table) : List (Value × Value) :=
  (t.items.toList.zipIdx 1).map fun (v, n) => (.int (Int64.ofInt n), v)

/-- All keys with a place and what they hold, in the order of a traversal. -/
def fields (t : Table) : List (Value × Value) :=
  t.itemFields ++ t.entries.toArray.toList.map fun e => (e.key.value, e.value)

theorem pairs_eq (t : Table) : t.pairs = t.fields.filter fun p => !p.2.isNil := rfl

@[simp]
theorem length_itemFields (t : Table) : t.itemFields.length = t.items.size := by
  simp [itemFields]

theorem getElem_itemFields (h : n < t.itemFields.length) :
    t.itemFields[n] = (.int (Int64.ofInt (n + 1)), t.items.getD n .nil) := by
  have bound : n < t.items.size := by simpa using h
  simp [itemFields, bound, Int.add_comm]

theorem itemFrom_eq (t : Table) (n : Nat) :
    t.itemFrom n = (t.itemFields.drop n).find? fun p => !p.2.isNil := by
  have (left n : Nat) (h : left = t.items.size - n) :
      itemFrom.go t left n = (t.itemFields.drop n).find? fun p => !p.2.isNil := by
    induction left generalizing n with
    | zero =>
      rw [List.drop_eq_nil_of_le (by simp; omega)]
      rfl
    | succ left ih =>
      have bound : n < t.itemFields.length := by simp; omega
      rw [List.drop_eq_getElem_cons bound, List.find?_cons, itemFrom.go, ih (n + 1) (by omega),
        getElem_itemFields]
      cases (t.items.getD n .nil).isNil <;> rfl
  exact this _ n rfl

theorem next_of_start (h : (v = .nil ∧ n = 0) ∨ (v ≠ .nil ∧ t.placeAfter v = .ok n)) :
    t.next v = .ok ((t.fields.drop n).find? fun p => !p.2.isNil) := by
  have first : (t.fields.drop n).find? (fun p => !p.2.isNil) = (t.itemFrom n).or
      ((t.entries.liveFrom (n - t.items.size)).map fun e => (e.key.value, e.value)) := by
    rw [fields, List.drop_append, List.find?_append, ← itemFrom_eq, Entries.liveFrom_eq,
      length_itemFields, ← List.map_drop, List.find?_map]
    rfl
  rw [first, next]
  rcases h with ⟨rfl, rfl⟩ | ⟨proper, place⟩
  · cases h : t.itemFrom 0 <;> simp [Value.isNil, h] <;> rfl
  · rw [Value.isNil_eq_false_iff.2 proper, place]
    cases h : t.itemFrom n <;> simp [h, bind, Except.bind, pure, Except.pure]

theorem placeAfter_value (t : Table) (k : Key) :
    t.placeAfter k.value = match t.place? k with
      | some n => .ok (n + 1)
      | none =>
        match t.entries.position? k with
        | some n => .ok (t.items.size + n + 1)
        | none => .error .unknownKey := by
  rw [placeAfter, Key.ofValue_value]
  rfl

def order (t : Table) : List Key :=
  (List.range t.items.size).map (fun n => .ofInt (Int64.ofInt (n + 1))) ++
    t.entries.toArray.toList.map Entry.key

namespace Steady

theorem fields_eq (steady : t.Steady) : t.fields = t.order.map fun k => (k.value, t.getKey k) := by
  have room := steady.neat.room
  rw [fields, order, List.map_append, List.map_map, List.map_map]
  congr 1
  · refine List.ext_getElem (by simp) fun n bound _ => ?_
    have bound' : n < t.items.size := by simpa using bound
    simp only [List.getElem_map, List.getElem_range, Function.comp_apply]
    rw [getElem_itemFields, getKey_of_at (Key.at_ofInt (by omega)) bound']
    rfl
  · refine List.map_congr_left fun e mem => ?_
    simp [getKey_of_place?_none (steady.neat.apart e mem), steady.neat.tidy.get_of_mem mem]

theorem liveKeys_eq (steady : t.Steady) :
    t.liveKeys = t.order.filter fun k => !(t.getKey k).isNil := by
  have room := steady.neat.room
  rw [liveKeys, order, List.filter_append, List.filter_map, List.filter_map, livePlaces]
  congr 2
  · refine List.filter_congr fun n mem => ?_
    have bound : n < t.items.size := by simpa using mem
    simp only [Function.comp_apply]
    rw [getKey_of_at (Key.at_ofInt (by omega)) bound]
  · refine List.filter_congr fun e mem => ?_
    have mem' : e ∈ t.entries.toArray.toList := by simpa using mem
    simp only [Function.comp_apply]
    rw [getKey_of_place?_none (steady.neat.apart e mem'), steady.neat.tidy.get_of_mem mem']

theorem pairs_eq (steady : t.Steady) : t.pairs = t.liveKeys.map fun k => (k.value, t.getKey k) := by
  rw [Table.pairs_eq, steady.fields_eq, List.filter_map, steady.liveKeys_eq]
  rfl

theorem mem_order (steady : t.Steady) (live : t.getKey k ≠ .nil) : k ∈ t.order := by
  have mem := (steady.neat.mem_liveKeys_iff k).2 live
  rw [steady.liveKeys_eq] at mem
  exact List.mem_of_mem_filter mem

theorem placeAfter_eq (steady : t.Steady) {before after : List Key}
    (h : t.order = before ++ k :: after) : t.placeAfter k.value = .ok (before.length + 1) := by
  have key : t.order[before.length]? = some k := by simp [h]
  rw [placeAfter_value]
  by_cases dense : before.length < t.items.size
  · have held : k.At before.length := by
      rw [order, List.getElem?_append_left (by simpa using dense)] at key
      have same : Key.ofInt (Int64.ofInt (before.length + 1)) = k := by simpa [dense] using key
      have room := steady.neat.room
      exact same ▸ Key.at_ofInt (by omega)
    rw [place?_eq_some_iff.2 ⟨held, dense⟩]
  · have keys : t.entries.toArray.toList.map Entry.key = before.drop t.items.size ++ k :: after := by
      have := congrArg (List.drop t.items.size) h
      rwa [order, List.drop_left' (by simp), List.drop_append_of_le_length (by omega)] at this
    have listed : k ∈ t.entries.toArray.toList.map Entry.key := by simp [keys]
    obtain ⟨e, mem, rfl⟩ := List.mem_map.1 listed
    rw [steady.neat.apart e mem, steady.neat.tidy.position?_of_keys keys]
    simp
    omega

/-- A step from the last of some keys goes to the first key behind them that holds a value. -/
theorem next_eq (steady : t.Steady) {before after : List Key} (h : t.order = before ++ after) :
    t.next ((before.getLast?.map Key.value).getD .nil) =
      .ok ((after.find? fun k => !(t.getKey k).isNil).map fun k => (k.value, t.getKey k)) := by
  have behind : t.fields.drop before.length = after.map fun k => (k.value, t.getKey k) := by
    rw [steady.fields_eq, ← List.map_drop, h, List.drop_left]
  rw [next_of_start (n := before.length), behind, List.find?_map]
  · rfl
  · rcases List.eq_nil_or_concat before with rfl | ⟨init, k, rfl⟩
    · simp
    · have split : t.order = init ++ k :: after := by simpa using h
      simpa [k.value_ne_nil] using steady.placeAfter_eq split

theorem order_setKey_of_held (steady : t.Steady) (h : v = .nil ∨ t.getKey k ≠ .nil) :
    (t.setKey k v).order = t.order := by
  obtain ⟨n, -, eq⟩ | ⟨next, live, eq⟩ | ⟨unplaced, -, eq⟩ := setKey_cases t k v
  · rw [eq]
    simp [order]
  · have unplaced : t.place? k = none := place?_eq_none_iff.2 fun n bound held => bound.ne (held.unique next)
    rw [getKey_of_place?_none unplaced, steady.settled k next] at h
    simp [live] at h
  · rw [getKey_of_place?_none unplaced] at h
    rw [eq]
    simp only [order, Entries.keys_set h]

end Steady

/-- Whether an operation adds no key: it clears one, or changes a value that is there. -/
def Op.addsNoKey (t : Table) : Op → Bool
  | .set k v => v.isNil || !(t.get k).isNil
  | .setInt i v => v.isNil || !(t.getInt i).isNil
  | .setStr s v => v.isNil || !(t.getStr s).isNil
  | .ofList _ => false

/-- A table with the same keys in the same places, some of them cleared. -/
structure Fades (t t' : Table) : Prop where
  steady : t'.Steady
  order_eq : t'.order = t.order
  live : ∀ k, t'.getKey k ≠ .nil → t.getKey k ≠ .nil

theorem Steady.fades_refl (steady : t.Steady) : t.Fades t := ⟨steady, rfl, fun _ live => live⟩

theorem Fades.trans {t' t'' : Table} (h : t.Fades t') (h' : t'.Fades t'') : t.Fades t'' :=
  ⟨h'.steady, h'.order_eq.trans h.order_eq, fun k live => h.live k (h'.live k live)⟩

theorem Steady.fades_setKey (steady : t.Steady) (h : (v.isNil || !(t.getKey k).isNil) = true) :
    t.Fades (t.setKey k v) := by
  have held : v = .nil ∨ t.getKey k ≠ .nil := by
    simpa [Value.isNil_iff, Value.isNil_eq_false_iff] using h
  refine ⟨steady.setKey k v, steady.order_setKey_of_held held, fun k' live => ?_⟩
  rw [(steady.neat.setKey k v).2] at live
  by_cases same : k' = k
  · subst same
    simp_all
  · simpa [same] using live

theorem Steady.fades_apply (steady : t.Steady) {op : Op} (h : op.addsNoKey t = true) :
    t.Fades (op.apply t) := by
  cases op with
  | set k v =>
    simp only [Op.apply, Op.addsNoKey, Table.set, Table.get] at h ⊢
    cases hk : Key.ofValue k with
    | ok k =>
      rw [hk] at h
      exact steady.fades_setKey h
    | error => exact steady.fades_refl
  | setInt i v => exact steady.fades_setKey (k := .ofInt i) h
  | setStr s v => exact steady.fades_setKey (k := .ofString s) h
  | ofList vs => simp [Op.addsNoKey] at h

/-- A traversal under way. -/
structure Walk where
  table : Table
  /-- The key to go on from, nil at first. -/
  last : Value := .nil
  /-- What the steps gave. -/
  given : List (Value × Value) := []
  /-- Whether a step found nothing more. -/
  finished : Bool := false

namespace Walk

/-- What happens during a traversal. -/
inductive Act
  | step
  | change (op : Op)

def Act.isStep : Act → Bool
  | .step => true
  | .change _ => false

/-- A step from the key that the step before gave. -/
def step (w : Walk) : Except TraversalFault Walk :=
  if w.finished then .ok w
  else
    match w.table.next w.last with
    | .ok (some p) => .ok { w with last := p.1, given := w.given ++ [p] }
    | .ok none => .ok { w with finished := true }
    | .error f => .error f

def change (w : Walk) (op : Op) : Walk := { w with table := op.apply w.table }

def run (w : Walk) : List Act → Except TraversalFault Walk
  | [] => .ok w
  | .step :: acts =>
    match w.step with
    | .ok w => w.run acts
    | .error f => .error f
  | .change op :: acts => (w.change op).run acts

/-- Whether no change in between adds a key. -/
def addsNoKey (w : Walk) : List Act → Bool
  | [] => true
  | .step :: acts =>
    match w.step with
    | .ok w => w.addsNoKey acts
    | .error _ => true
  | .change op :: acts => op.addsNoKey w.table && (w.change op).addsNoKey acts

structure Past (w : Walk) (before after : List Key) : Prop where
  order_eq : w.table.order = before ++ after
  last_eq : w.last = (before.getLast?.map Key.value).getD .nil

def moveTo (w : Walk) (k : Key) : Walk :=
  { w with last := k.value, given := w.given ++ [(k.value, w.table.getKey k)] }

variable {w : Walk} {before after : List Key}

theorem Past.moveTo {passed rest : List Key} {k : Key} (h : w.Past before (passed ++ k :: rest)) :
    (w.moveTo k).Past (before ++ passed ++ [k]) rest where
  order_eq := by simpa [Walk.moveTo] using h.order_eq
  last_eq := by simp [Walk.moveTo]

/-- A step passes over the cleared keys to one that holds a value, or to the end. -/
theorem Past.step (h : w.Past before after) (steady : w.table.Steady) (going : w.finished = false) :
    (∃ passed k rest, after = passed ++ k :: rest ∧ (∀ k' ∈ passed, w.table.getKey k' = .nil) ∧
      w.table.getKey k ≠ .nil ∧ w.step = .ok (w.moveTo k)) ∨
    ((∀ k ∈ after, w.table.getKey k = .nil) ∧ w.step = .ok { w with finished := true }) := by
  have next := steady.next_eq h.order_eq
  rw [← h.last_eq] at next
  cases found : after.find? fun k => !(w.table.getKey k).isNil with
  | none =>
    refine .inr ⟨fun k mem => ?_, by simp [Walk.step, going, next, found]⟩
    simpa [Value.isNil_iff] using List.find?_eq_none.1 found k mem
  | some k =>
    obtain ⟨live, passed, rest, rfl, cleared⟩ := List.find?_eq_some_iff_append.1 found
    refine .inl ⟨passed, k, rest, rfl, fun k' mem => ?_, ?_, by
      simp [Walk.step, going, next, found, Walk.moveTo]⟩
    · simpa [Value.isNil_iff] using cleared k' mem
    · simpa [Value.isNil_eq_false_iff] using live

/-- What holds of a traversal of a table all along. -/
structure Sound (t : Table) (w : Walk) (before after : List Key) : Prop where
  fades : t.Fades w.table
  past : w.Past before after
  /-- The keys given are some of those passed that held a value at the start. -/
  given : (w.given.map Prod.fst).Sublist
    ((before.filter fun k => !(t.getKey k).isNil).map Key.value)
  /-- Of the keys passed, all that still hold a value were given. -/
  covers : ∀ k ∈ before, w.table.getKey k ≠ .nil → k.value ∈ w.given.map Prod.fst
  ended : w.finished = true → ∀ k ∈ after, w.table.getKey k = .nil

theorem Sound.moveTo {passed rest : List Key} {k : Key} (h : w.Sound t before (passed ++ k :: rest))
    (going : w.finished = false) (cleared : ∀ k' ∈ passed, w.table.getKey k' = .nil)
    (live : w.table.getKey k ≠ .nil) : (w.moveTo k).Sound t (before ++ passed ++ [k]) rest where
  fades := h.fades
  past := h.past.moveTo
  given := by
    have first := Value.isNil_eq_false_iff.2 (h.fades.live k live)
    have more := h.given.append (List.nil_sublist
      ((passed.filter fun k => !(t.getKey k).isNil).map Key.value))
    simpa [Walk.moveTo, first] using more.append (List.Sublist.refl [k.value])
  covers k' mem live' := by
    have : k' ∈ before ∨ k' ∈ passed ∨ k' = k := by simpa [or_assoc] using mem
    rcases this with mem | mem | rfl
    · have := h.covers k' mem live'
      simp only [Walk.moveTo, List.map_append, List.mem_append]
      exact .inl this
    · exact absurd (cleared k' mem) live'
    · simp [Walk.moveTo]
  ended finished := by simp [Walk.moveTo, going] at finished

theorem Sound.step (h : w.Sound t before after) :
    ∃ w' before' after', w.step = .ok w' ∧ w'.Sound t before' after' := by
  by_cases going : w.finished = false
  · obtain ⟨passed, k, rest, rfl, cleared, live, eq⟩ | ⟨cleared, eq⟩ := h.past.step h.fades.steady going
    · exact ⟨_, _, _, eq, h.moveTo going cleared live⟩
    · exact ⟨_, before, after, eq, h.fades, ⟨h.past.order_eq, h.past.last_eq⟩, h.given, h.covers,
        fun _ => cleared⟩
  · exact ⟨w, before, after, by simp_all [Walk.step], h⟩

theorem Sound.change (h : w.Sound t before after) {op : Op} (adds : op.addsNoKey w.table = true) :
    (w.change op).Sound t before after := by
  have fades := h.fades.steady.fades_apply adds
  refine ⟨h.fades.trans fades, ⟨fades.order_eq.trans h.past.order_eq, h.past.last_eq⟩, h.given,
    fun k mem live => h.covers k mem (fades.live k live), fun finished k mem => ?_⟩
  by_contra live
  exact fades.live k live (h.ended finished k mem)

theorem Sound.run {acts : List Act} (h : w.Sound t before after) (adds : w.addsNoKey acts = true) :
    ∃ w' before' after', w.run acts = .ok w' ∧ w'.Sound t before' after' := by
  induction acts generalizing w before after with
  | nil => exact ⟨w, before, after, rfl, h⟩
  | cons act acts ih =>
    cases act with
    | step =>
      obtain ⟨w', before', after', eq, h'⟩ := h.step
      simp only [Walk.addsNoKey, Walk.run, eq] at adds ⊢
      exact ih h' adds
    | change op =>
      simp only [Walk.addsNoKey, Bool.and_eq_true] at adds
      exact ih (h.change adds.1) adds.2

theorem run_of_finished {w' : Walk} {acts : List Act} (finished : w.finished = true)
    (h : w.run acts = .ok w') : w'.finished = true := by
  induction acts generalizing w with
  | nil =>
    obtain rfl : w = w' := by simpa [Walk.run] using h
    exact finished
  | cons act acts ih =>
    cases act with
    | step => exact ih finished (by simpa [Walk.run, Walk.step, finished] using h)
    | change op => exact ih (w := w.change op) finished h

theorem length_given {w' : Walk} {acts : List Act} (h : w.run acts = .ok w') :
    w'.finished = true ∨ w'.given.length = w.given.length + acts.countP Act.isStep := by
  induction acts generalizing w with
  | nil =>
    obtain rfl : w = w' := by simpa [Walk.run] using h
    simp
  | cons act acts ih =>
    cases act with
    | step =>
      by_cases finished : w.finished = true
      · exact .inl (run_of_finished finished h)
      · rw [Walk.run, Walk.step, if_neg finished] at h
        rcases next : w.table.next w.last with f | _ | p <;> simp only [next] at h
        · cases h
        · exact .inl (run_of_finished rfl h)
        · refine (ih h).imp_right fun length => ?_
          simp only [List.length_append, List.length_singleton] at length
          simp only [List.countP_cons, Act.isStep, if_true]
          omega
    | change op =>
      have := ih (w := w.change op) h
      simpa [Act.isStep, Walk.change] using this

theorem run_steps_of_finished (finished : w.finished = true) (n : Nat) :
    w.run (.replicate n .step) = .ok w := by
  induction n with
  | zero => rfl
  | succ n ih => simpa [List.replicate_succ, Walk.run, Walk.step, finished] using ih

/-- Steps alone give what the table holds, in its order. -/
theorem Past.steps {n : Nat} (h : w.Past before after) (steady : w.table.Steady)
    (going : w.finished = false)
    (given : w.given = (before.filter fun k => !(w.table.getKey k).isNil).map
      fun k => (k.value, w.table.getKey k))
    (enough : after.countP (fun k => !(w.table.getKey k).isNil) < n) :
    ∃ w', w.run (.replicate n .step) = .ok w' ∧ w'.finished = true ∧ w'.given = w.table.pairs := by
  induction n generalizing w before after with
  | zero => omega
  | succ n ih =>
    rw [List.replicate_succ, Walk.run]
    obtain ⟨passed, k, rest, rfl, cleared, live, eq⟩ | ⟨cleared, eq⟩ := h.step steady going
    · have none : passed.filter (fun k => !(w.table.getKey k).isNil) = [] := by
        simpa [Value.isNil_iff] using cleared
      have first := Value.isNil_eq_false_iff.2 live
      rw [eq]
      refine ih h.moveTo steady going ?_ ?_
      · simp [Walk.moveTo, given, none, first]
      · simp only [List.countP_append, List.countP_cons, first] at enough
        simp only [Walk.moveTo]
        simp at enough
        omega
    · have none : after.filter (fun k => !(w.table.getKey k).isNil) = [] := by
        simpa [Value.isNil_iff] using cleared
      rw [eq]
      refine ⟨_, run_steps_of_finished rfl n, rfl, ?_⟩
      rw [steady.pairs_eq, steady.liveKeys_eq, h.order_eq, List.filter_append, none, List.append_nil]
      exact given

theorem sound_start (steady : t.Steady) : Sound t { table := t } [] t.order where
  fades := steady.fades_refl
  past := ⟨rfl, rfl⟩
  given := by simp
  covers := by simp
  ended := by simp

theorem Sound.given_sublist (h : w.Sound t before after) (steady : t.Steady) :
    (w.given.map Prod.fst).Sublist (t.liveKeys.map Key.value) := by
  refine h.given.trans (List.Sublist.map _ ?_)
  rw [steady.liveKeys_eq, ← h.fades.order_eq, h.past.order_eq]
  exact (List.sublist_append_left before after).filter _

theorem Sound.mem_given (h : w.Sound t before after) (finished : w.finished = true) {k : Key}
    (live : w.table.getKey k ≠ .nil) : k.value ∈ w.given.map Prod.fst := by
  have mem := h.fades.steady.mem_order live
  rw [h.past.order_eq, List.mem_append] at mem
  rcases mem with mem | mem
  · exact h.covers k mem live
  · exact absurd (h.ended finished k mem) live

end Walk

/-- A traversal to which no key is added ends without a fault, and gives no key twice and all that keep a value.
Undisturbed it gives the dense part and then the entries. -/
theorem traversal_complete (reached : t.Reachable) :
    (∀ acts, Walk.addsNoKey { table := t } acts = true →
      ∃ w, Walk.run { table := t } acts = .ok w ∧ (w.given.map Prod.fst).Nodup ∧
        (t.pairs.length < acts.countP Walk.Act.isStep → w.finished = true) ∧
        (w.finished = true → ∀ k : Key, w.table.getKey k ≠ .nil → k.value ∈ w.given.map Prod.fst)) ∧
    ∀ n, t.pairs.length < n →
      ∃ w, Walk.run { table := t } (.replicate n .step) = .ok w ∧ w.finished = true ∧
        w.given = t.pairs := by
  have steady := reached.steady
  have start := Walk.sound_start steady
  refine ⟨fun acts adds => ?_, fun n enough => ?_⟩
  · obtain ⟨w, before, after, run, sound⟩ := start.run adds
    have sublist := sound.given_sublist steady
    refine ⟨w, run, ?_, fun enough => ?_, fun finished k => sound.mem_given finished⟩
    · have nodup := steady.neat.nodup_liveKeys
      exact (nodup.map fun _ _ => Key.ext_value).sublist sublist
    · have bound := sublist.length_le
      rcases Walk.length_given run with finished | length
      · exact finished
      · simp only [steady.pairs_eq, List.length_map, List.length_nil] at enough bound length
        omega
  · refine start.past.steps steady rfl rfl ?_
    rwa [List.countP_eq_length_filter, ← steady.liveKeys_eq, ← List.length_map, ← steady.pairs_eq]

/-- Two keys are cleared under a traversal, one that it stands on and one ahead of it, and the value of a
third is changed. -/
theorem traversal_complete_cleared :
    let made := Op.apply empty (.ofList [.str "a", .str "b"])
    let t := Op.apply (Op.apply made (.setStr "n" (.int 1))) (.set (.bool true) (.int 2))
    let acts : List Walk.Act := [.step, .change (.setInt 1 .nil), .step, .change (.setStr "n" .nil),
      .change (.set (.bool true) (.int 3)), .step, .step, .step]
    t.Reachable ∧ Walk.addsNoKey { table := t } acts = true ∧
      ∃ w, Walk.run { table := t } acts = .ok w ∧ w.finished = true ∧
        w.given.map Prod.fst = [.int 1, .int 2, .bool true] ∧
        ∀ k : Key, w.table.getKey k ≠ .nil → k.value ∈ w.given.map Prod.fst := by
  intro made t acts
  have reached : t.Reachable := .apply _ (.apply _ (.apply _ .empty))
  have adds : Walk.addsNoKey { table := t } acts = true := by decide +kernel
  obtain ⟨w, run, -, ends, covers⟩ := (traversal_complete reached).1 acts adds
  have finished := ends (by decide +kernel)
  have keys : (Walk.run { table := t } acts).toOption.map (fun w => w.given.map Prod.fst) =
      some [.int 1, .int 2, .bool true] := by decide +kernel
  rw [run] at keys
  exact ⟨reached, adds, w, run, finished, Option.some.inj keys, covers finished⟩

end Table
end RegisterMachine
