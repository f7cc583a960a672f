import RegisterMachine.Proofs.Brokers

/-! One slot of an arena, watched. A change of the machine spares the slot if it leaves its value alone
or assigns it through a broker that is live over it, and brings no new broker over it. Every change does
that whose writing is at or above a higher slot, and every change that is made in another arena. -/
namespace RegisterMachine

namespace Arena

theorem get_grow (a : Arena) (i j : Nat) : (a.grow i).get j = a.get j := by
  rw [grow]
  split
  · rfl
  · simp only [get, Array.getD_eq_getD_getElem?, Array.getElem?_append]
    split
    · rfl
    · rename_i h
      rw [Array.getElem?_replicate, Array.getElem?_eq_none (Nat.le_of_not_lt h)]
      split <;> rfl

theorem get_put_of_ne (a : Arena) {i j : Nat} (h : i ≠ j) (v : Value) : (a.put i v).get j = a.get j := by
  rw [← get_grow a i j, put]
  simp [get, h]

theorem getD_putAll_of_lt {j start : Nat} (h : j < start) (slots : Array Value) (vs : List Value) :
    (putAll slots start vs).getD j .nil = slots.getD j .nil := by
  induction vs generalizing slots start with
  | nil => rfl
  | cons v vs ih =>
    rw [putAll, ih (by omega)]
    simp [Nat.ne_of_gt h]

theorem getD_wipe (slots : Array Value) (start n j : Nat) : (wipe slots start n).getD j .nil =
    if start ≤ j ∧ j < start + n then .nil else slots.getD j .nil := by
  induction n generalizing slots start with
  | zero => rw [wipe, if_neg (by omega)]
  | succ n ih =>
    rw [wipe, ih]
    by_cases h : start = j
    · subst h
      rw [if_neg (by omega), if_pos (by omega)]
      simp only [Array.getD_eq_getD_getElem?, Array.getElem?_setIfInBounds_self]
      split <;> rfl
    · simp only [Array.getD_eq_getD_getElem?, Array.getElem?_setIfInBounds_ne h]
      congr 1
      simp only [eq_iff_iff]
      omega

theorem get_clearRange (a : Arena) (start stop j : Nat) : (a.clearRange start stop).get j =
    if start ≤ j ∧ j < stop then .nil else a.get j := by
  rw [clearRange]
  split
  · rw [if_neg (by omega)]
  · show (wipe (a.grow (stop - 1)).slots start (stop - start)).getD j .nil = _
    rw [getD_wipe, ← get_grow a (stop - 1) j, get]
    congr 1
    simp only [eq_iff_iff]
    omega

/-- What is written at or above a slot. -/
def Op.WritesFrom (low : Nat) : Op → Prop
  | .put i _ => low ≤ i
  | .grow _ => True
  | .putRange start _ => low ≤ start
  | .clearRange start _ => low ≤ start

theorem get_apply_of_lt {op : Op} {low j : Nat} (hw : op.WritesFrom low) (hj : j < low) (a : Arena) :
    (op.apply a).get j = a.get j := by
  cases op with
  | put i v =>
    have : low ≤ i := hw
    exact get_put_of_ne a (by omega) v
  | grow i => exact get_grow a i j
  | putRange start vs =>
    have : low ≤ start := hw
    show (a.putRange start vs).get j = a.get j
    rw [putRange]
    split
    · rfl
    · rw [← get_grow a (start + vs.length - 1) j]
      exact getD_putAll_of_lt (by omega) _ _
  | clearRange start stop =>
    have : low ≤ start := hw
    exact (get_clearRange a start stop j).trans (if_neg (by omega))

end Arena

namespace Heap

theorem arena_eq (h : Heap) (a : Ref .arena) : h.arena a = (h.arenas.get? a).getD default := by
  simp [arena, Store.getD, Store.get?]

theorem arena_modifyArena_of_ne (h : Heap) {r a : Ref .arena} (ne : r ≠ a) (f : Arena → Arena) :
    (h.modifyArena r f).arena a = h.arena a := by
  rw [arena_eq, arena_eq, modifyArena, Store.get?_modify_of_ne _ ne]

theorem get_modifyArena {f : Arena → Arena} {j : Nat} (hf : ∀ x : Arena, (f x).get j = x.get j)
    (h : Heap) (a : Ref .arena) : ((h.modifyArena a f).arena a).get j = (h.arena a).get j := by
  rw [arena_eq, arena_eq, modifyArena, Store.get?_modify_self]
  cases h.arenas.get? a with
  | none => rfl
  | some x => exact hf x

theorem get_newArena (h : Heap) (x : Arena) (hx : ∀ j, x.get j = .nil) (a : Ref .arena) (j : Nat) :
    ((h.newArena x).2.arena a).get j = (h.arena a).get j := by
  rw [arena_eq, arena_eq]
  simp only [newArena, Store.alloc, Store.get?, Array.getElem?_push]
  split
  · rename_i ha
    rw [Option.getD_some, hx, ha, Array.getElem?_eq_none (Nat.le_refl _)]
    rfl
  · rfl

end Heap

theorem Arena.get_create (initial limit j : Nat) : (Arena.create initial limit).get j = .nil := by
  simp only [create, get, Array.getD_eq_getD_getElem?, Array.getElem?_replicate]
  split <;> rfl

namespace Machine

/-- Leaves the slot as it is, or assigns it through a broker that is live over it; and no broker comes to
be live over it. -/
structure Spares (a : Ref .arena) (i : Nat) (m m' : Machine) : Prop where
  value : (m'.heap.arena a).get i = (m.heap.arena a).get i ∨
    ∃ r v, m.heap.brokers.get? r = some (.live a i) ∧
      m' = m.modifyHeap (·.modifyArena a (·.put i v))
  brokers : ∀ r, m'.heap.brokers.get? r = some (.live a i) → m.heap.brokers.get? r = some (.live a i)

namespace Spares

variable {a : Ref .arena} {i low : Nat} {m m' : Machine}

theorem of_eq (ha : m'.heap.arenas = m.heap.arenas) (hb : m'.heap.brokers = m.heap.brokers) :
    Spares a i m m' := by
  refine ⟨.inl ?_, fun r hr => ?_⟩
  · rw [Heap.arena, ha, Heap.arena]
  · rwa [← hb]

theorem write {op : Arena.Op} (ha : m.fiber.arena = a → i < low) (hw : op.WritesFrom low) :
    Spares a i m (m.modifyArena op.apply) := by
  refine ⟨.inl ?_, fun r hr => hr⟩
  show ((m.heap.modifyArena m.fiber.arena op.apply).arena a).get i = _
  by_cases same : m.fiber.arena = a
  · rw [same]
    exact Heap.get_modifyArena (Arena.get_apply_of_lt hw (ha same)) _ _
  · rw [Heap.arena_modifyArena_of_ne _ same]

theorem assign {r : Ref .broker} {x : Ref .arena} {slot : Nat} (v : Value)
    (hr : m.heap.brokers.get? r = some (.live x slot)) :
    Spares a i m (m.modifyHeap (·.modifyArena x (·.put slot v))) := by
  refine ⟨?_, fun r hr => hr⟩
  by_cases same : x = a
  · subst same
    by_cases here : slot = i
    · subst here
      exact .inr ⟨r, v, hr, rfl⟩
    · exact .inl (Heap.get_modifyArena (fun y => Arena.get_put_of_ne y here v) _ _)
  · left
    show ((m.heap.modifyArena x _).arena a).get i = _
    rw [Heap.arena_modifyArena_of_ne _ same]

theorem assignClosed (r : Ref .broker) (v : Value) :
    Spares a i m (m.modifyHeap fun h => { h with brokers := h.brokers.modify r fun _ => .closed v }) := by
  refine ⟨.inl rfl, fun q hq => ?_⟩
  change (m.heap.brokers.modify r _).get? q = _ at hq
  by_cases same : r = q
  · subst same
    rw [Store.get?_modify_self] at hq
    cases hg : m.heap.brokers.get? r <;> simp [hg] at hq
  · rwa [Store.get?_modify_of_ne _ same] at hq

theorem load (p : Prototype) : Spares a i m (m.load p).2 := by
  have h := Loaded.load m p
  refine ⟨.inl ?_, fun q hq => ?_⟩
  · rw [Heap.arena, h.arenas, Heap.arena]
  · by_cases old : q.index < m.heap.brokers.items.size
    · rwa [h.old q old] at hq
    · exact absurd hq (h.new q a i (Nat.le_of_not_lt old))

theorem act (x : Action) : Spares a i m (x.apply m).2 := by
  cases x with
  | newCoroutine entry =>
    refine ⟨.inl ?_, fun r hr => hr⟩
    exact Heap.get_newArena (m.heap.newToken { parent := some m.fiber.token }).2 _
      (Arena.get_create _ _) a i
  | load p => exact load p
  | _ => exact of_eq rfl rfl

theorem closeBrokers {rs : List (Ref .broker)} (h : m'.heap = m.heap.closeBrokers rs) :
    Spares a i m m' := by
  refine ⟨.inl ?_, fun r hr => ?_⟩
  · rw [h, Heap.arena, arenas_closeBrokers, Heap.arena]
  · rw [h] at hr
    by_cases hm : r ∈ rs
    · exact absurd hr (Heap.get?_closeBrokers_of_mem _ hm a i)
    · rwa [Heap.get?_closeBrokers_of_not_mem _ hm] at hr

theorem openBroker {slot : Nat} (ha : m.fiber.arena = a → i < low) (hs : low ≤ slot) :
    Spares a i m (m.openBroker slot) := by
  refine ⟨.inl rfl, fun r hr => ?_⟩
  change (m.heap.brokers.alloc (.live m.fiber.arena slot)).2.get? r = _ at hr
  simp only [Store.alloc, Store.get?, Array.getElem?_push] at hr
  split at hr
  · obtain ⟨rfl, rfl⟩ : m.fiber.arena = a ∧ slot = i := by simpa using hr
    exact absurd (ha rfl) (by omega)
  · exact hr

end Spares

end Machine
end RegisterMachine
