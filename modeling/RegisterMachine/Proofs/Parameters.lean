import RegisterMachine.Proofs.Slots

/-! The window of a new frame: what its registers read as when a call has been set up, whatever the slots
held before. -/
namespace RegisterMachine

namespace Arena

theorem lt_doubled {size : Nat} (h : 0 < size) (i : Nat) : i < doubled size i := by
  have hq : i / size < 2 ^ ((i / size).log2 + 1) := Nat.lt_log2_self
  rw [doubled, Nat.shiftLeft_eq, Nat.mul_comm]
  exact (Nat.div_lt_iff_lt_mul h).1 hq

theorem lt_size_grow {a : Arena} {i : Nat} (h : a.admits i) : i < (a.grow i).slots.size := by
  rw [grow]
  split
  · assumption
  · rename_i hi
    have hl : i < a.limit := by simpa [admits, hi] using h
    have hd := lt_doubled (Nat.lt_of_lt_of_le Nat.zero_lt_one (Nat.le_max_right a.slots.size 1)) i
    simp only [Array.size_append, Array.size_replicate]
    omega

theorem getD_putAll {slots : Array Value} {start : Nat} {vs : List Value}
    (h : start + vs.length ≤ slots.size) (j : Nat) : (putAll slots start vs).getD j .nil =
      if start ≤ j then vs.getD (j - start) (slots.getD j .nil) else slots.getD j .nil := by
  induction vs generalizing slots start with
  | nil => simp [putAll]
  | cons v vs ih =>
    have hlen : start + 1 + vs.length ≤ slots.size := by
      rw [List.length_cons] at h
      omega
    rw [putAll, ih (by simpa using hlen)]
    obtain hlt | rfl | hgt := Nat.lt_trichotomy start j
    · obtain ⟨d, rfl⟩ : ∃ d, j = start + 1 + d := ⟨j - (start + 1), by omega⟩
      have hd : start + 1 + d - start = d + 1 := by omega
      rw [if_pos (by omega), if_pos (by omega), hd]
      simp [Array.getElem?_setIfInBounds_ne (Nat.ne_of_lt hlt)]
    · rw [if_neg (by omega), if_pos (Nat.le_refl _), Nat.sub_self]
      simp [show start < slots.size by omega]
    · rw [if_neg (by omega), if_neg (by omega)]
      simp [Array.getElem?_setIfInBounds_ne (Nat.ne_of_gt hgt)]

theorem get_put {a : Arena} {i : Nat} (h : a.admits i) (v : Value) : (a.put i v).get i = v := by
  simp [put, get, lt_size_grow h]

/-- Values that have room are read back; all other slots keep theirs. -/
theorem get_putRange {a : Arena} {start : Nat} {vs : List Value} (h : a.admitsRange start vs.length)
    (j : Nat) : (a.putRange start vs).get j =
      if start ≤ j then vs.getD (j - start) (a.get j) else a.get j := by
  rw [putRange]
  split
  · rename_i he
    simp [List.isEmpty_iff.1 he]
  · rename_i he
    have hlen : vs.length ≠ 0 := by simpa using he
    have hroom := lt_size_grow (a := a) (i := start + vs.length - 1) (by
      simpa [admitsRange, lastSlot?, hlen] using h)
    rw [← get_grow a (start + vs.length - 1) j]
    exact getD_putAll (by omega) j

theorem length_readRange (a : Arena) (start count : Nat) : (a.readRange start count).length = count := by
  simp [readRange]

theorem getElem?_readRange (a : Arena) {start count i : Nat} (h : i < count) :
    (a.readRange start count)[i]? = some (a.get (start + i)) := by
  simp [readRange, h]

theorem drop_readRange (a : Arena) (start count n : Nat) :
    (a.readRange start count).drop n = a.readRange (start + n) (count - n) := by
  rw [readRange, ← List.map_drop, List.drop_range', Nat.mul_one, readRange]

theorem readRange_putRange {a : Arena} {start : Nat} {vs : List Value}
    (h : a.admitsRange start vs.length) : (a.putRange start vs).readRange start vs.length = vs := by
  refine List.ext_getElem (length_readRange _ _ _) fun i hi hv => ?_
  rw [← Option.some_inj, ← List.getElem?_eq_getElem hi, getElem?_readRange _ hv, get_putRange h,
    if_pos (Nat.le_add_right _ _), Nat.add_sub_cancel_left]
  simp [hv]

theorem size_putAll (slots : Array Value) (start : Nat) (vs : List Value) :
    (putAll slots start vs).size = slots.size := by
  induction vs generalizing slots start with
  | nil => rfl
  | cons v vs ih => rw [putAll, ih, Array.size_setIfInBounds]

theorem size_wipe (slots : Array Value) (start n : Nat) : (wipe slots start n).size = slots.size := by
  induction n generalizing slots start with
  | zero => rfl
  | succ n ih => rw [wipe, ih, Array.size_setIfInBounds]

theorem admits_iff {a : Arena} {i : Nat} : a.admits i = true ↔ i < a.slots.size ∨ i < a.limit := by
  rw [admits, Bool.or_eq_true, decide_eq_true_eq, decide_eq_true_eq]

theorem admits_of_le {a : Arena} {i j : Nat} (h : a.admits j) (hle : i ≤ j) : a.admits i :=
  admits_iff.2 ((admits_iff.1 h).imp (Nat.lt_of_le_of_lt hle) (Nat.lt_of_le_of_lt hle))

theorem admitsRange_iff {a : Arena} {start count : Nat} :
    a.admitsRange start count = true ↔ count = 0 ∨ a.admits (start + count - 1) = true := by
  rw [admitsRange, lastSlot?]
  by_cases hz : count = 0
  · simp only [hz, if_true, true_or]
  · simp only [hz, if_false, false_or]

theorem admits_grow {a : Arena} {i : Nat} (h : a.admits i) (j : Nat) :
    (a.grow i).admits j = true ↔ a.admits j = true := by
  have hi := admits_iff.1 h
  rw [admits_iff, admits_iff, grow]
  split
  · rfl
  · simp only [Array.size_append, Array.size_replicate]
    omega

theorem admits_of_size {a : Arena} {slots : Array Value} (hs : slots.size = a.slots.size) (j : Nat) :
    (⟨slots, a.limit⟩ : Arena).admits j = true ↔ a.admits j = true := by
  rw [admits_iff, admits_iff, hs]

theorem admits_apply {a : Arena} {op : Op} (h : op.fits a) (j : Nat) :
    (op.apply a).admits j = true ↔ a.admits j = true := by
  cases op with
  | put i v => exact (admits_of_size (Array.size_setIfInBounds ..) j).trans (admits_grow h j)
  | grow i => exact admits_grow h j
  | putRange start vs =>
    show (a.putRange start vs).admits j = true ↔ _
    rw [putRange]
    split
    · rfl
    · rename_i hne
      have hlast := (admitsRange_iff.1 h).resolve_left fun hz => hne (by rw [List.eq_nil_of_length_eq_zero hz]; rfl)
      exact (admits_of_size (size_putAll _ _ _) j).trans (admits_grow hlast j)
  | clearRange start stop =>
    show (a.clearRange start stop).admits j = true ↔ _
    rw [clearRange]
    split
    · rfl
    · rename_i hlt
      have hlast := (admitsRange_iff.1 h).resolve_left fun hz => hlt (by omega)
      rw [show start + (stop - start) - 1 = stop - 1 by omega] at hlast
      exact (admits_of_size (size_wipe _ _ _) j).trans (admits_grow hlast j)

theorem not_admits_default (i : Nat) : ¬(default : Arena).admits i := by
  intro hi
  change (decide (i < 0) || decide (i < 0)) = true at hi
  simp at hi

theorem Op.apply_default {op : Op} (h : op.fits default) : op.apply default = default := by
  have hrange : ∀ start count, (default : Arena).admitsRange start count → count = 0 := by
    intro start count hc
    by_contra hne
    exact not_admits_default (start + count - 1) (by simpa [admitsRange, lastSlot?, hne] using hc)
  cases op with
  | put i v => exact absurd h (not_admits_default i)
  | grow i => exact absurd h (not_admits_default i)
  | putRange start vs =>
    have hvs : vs = [] := List.eq_nil_of_length_eq_zero (hrange start vs.length h)
    rw [hvs]
    rfl
  | clearRange start stop =>
    have hle : stop ≤ start := Nat.le_of_sub_eq_zero (hrange start (stop - start) h)
    exact if_pos hle

end Arena

namespace Machine

theorem arena_modifyArena {m : Machine} {op : Arena.Op} (h : op.fits m.arena) :
    (m.modifyArena op.apply).arena = op.apply m.arena := by
  show (m.heap.modifyArena m.fiber.arena op.apply).arena m.fiber.arena = _
  rw [arena, Heap.arena_eq] at h ⊢
  rw [Heap.arena_eq, Heap.modifyArena, Store.get?_modify_self]
  cases hg : m.heap.arenas.get? m.fiber.arena with
  | none =>
    rw [hg] at h
    exact (Arena.Op.apply_default h).symm
  | some a => rfl

end Machine

structure Frame.Receives (f : Frame) (args : List Value) (old new : Arena) : Prop where
  /-- A parameter that has an argument holds it. -/
  given : ∀ i v, i < f.prototype.params.toNat → args[i]? = some v → new.get (f.base + i) = v
  /-- The rest of the window is nil. -/
  rest : ∀ i, args.length ≤ i ∨ f.prototype.params.toNat ≤ i → i < f.prototype.window.toNat →
    new.get (f.base + i) = .nil
  /-- The arguments behind the parameters are kept by a function that takes any number of them. -/
  surplus : f.varargs = if f.prototype.isVararg then args.drop f.prototype.params.toNat else []
  /-- Only the window is touched: a parameter outside it that has no argument reads as before. -/
  outside : ∀ j, j < f.base ∨ f.top ≤ j → new.get j = old.get j

namespace Exec

open Machine

/-- Writing to the arena of the running fiber, where there is room. -/
def write (op : Arena.Op) : Exec Unit := fun m =>
  if op.fits m.arena then .ret () (m.modifyArena op.apply) else .raise .stackOverflow m

variable {m m' : Machine}

theorem write_ret (op : Arena.Op) (h : write op m = .ret () m') :
    op.fits m.arena ∧ m' = m.modifyArena op.apply ∧ m'.arena = op.apply m.arena := by
  unfold write at h
  split at h
  · rename_i hf
    cases h
    exact ⟨hf, rfl, arena_modifyArena hf⟩
  · cases h

theorem ret_of_bind_ret {α β : Type} {x : Exec α} {k : α → Exec β} {b : β}
    (h : (x >>= k) m = .ret b m') : ∃ a m₁, x m = .ret a m₁ ∧ k a m₁ = .ret b m' := by
  rw [bind_eq] at h
  cases hx : x m with
  | ret a m₁ =>
    rw [hx] at h
    exact ⟨a, m₁, rfl, h⟩
  | raise f m₁ =>
    rw [hx] at h
    cases h
  | ask q m₁ k' =>
    rw [hx] at h
    cases h

theorem openWindow_ret {f : Frame} {count : Nat} (h : openWindow f count m = .ret () m') :
    m'.fiber = { m.fiber with top := f.top } ∧
      ∀ j, m'.arena.get j =
        if f.base + min count f.prototype.params.toNat ≤ j ∧ j < f.top then .nil else m.arena.get j := by
  obtain ⟨_, m₁, hgrow, h⟩ := ret_of_bind_ret h
  obtain ⟨_, m₂, hclear, h⟩ := ret_of_bind_ret h
  obtain ⟨-, rfl, hgrown⟩ := write_ret (.grow f.top) hgrow
  obtain ⟨-, rfl, hcleared⟩ := write_ret (.clearRange _ f.top) hclear
  cases h
  refine ⟨rfl, fun j => ?_⟩
  calc _ = ((Arena.Op.clearRange (f.base + min count f.prototype.params.toNat) f.top).apply
        ((Arena.Op.grow f.top).apply m.arena)).get j := by rw [← hgrown, ← hcleared]; rfl
    _ = _ := by
      simp only [Arena.Op.apply, Arena.get_clearRange, Arena.get_grow]

theorem admits_of_openWindow {f : Frame} {count : Nat} (h : openWindow f count m = .ret () m') :
    m'.arena.admits f.top := by
  obtain ⟨_, m₁, hgrow, h⟩ := ret_of_bind_ret h
  obtain ⟨_, m₂, hclear, h⟩ := ret_of_bind_ret h
  obtain ⟨hfit, -, hgrown⟩ := write_ret (.grow f.top) hgrow
  obtain ⟨hfit', -, hcleared⟩ := write_ret (.clearRange _ f.top) hclear
  cases h
  show m₂.arena.admits f.top
  rw [hcleared, Arena.admits_apply hfit', hgrown, Arena.admits_apply hfit]
  exact hfit

/-- Only the window of a new frame is written: nil, behind the parameters that were given. -/
theorem pushFrame_ret {r : Ref .closure} {start count : Nat} {wanted : Option Nat}
    (h : pushFrame r start count wanted m = .ret () m') :
    let f := newFrame m r start count wanted
    m'.fiber = { m.fiber with top := f.top, calls := m.fiber.calls.push f } ∧
      ∀ j, m'.arena.get j =
        if f.base + min count f.prototype.params.toNat ≤ j ∧ j < f.top then .nil else m.arena.get j := by
  rw [pushFrame_eq] at h
  split at h
  · cases h
  · obtain ⟨_, m₁, hopen, h⟩ := ret_of_bind_ret h
    obtain ⟨hfiber, hget⟩ := openWindow_ret hopen
    cases h
    refine ⟨?_, hget⟩
    simp only [enterFrame, modifyFiber, hfiber]

theorem receives_of_pushFrame {r : Ref .closure} {start count : Nat} {wanted : Option Nat}
    (h : pushFrame r start count wanted m = .ret () m') :
    (newFrame m r start count wanted).Receives (m.arena.readRange (start + 1) count) m.arena
      m'.arena := by
  obtain ⟨-, hget⟩ := pushFrame_ret h
  generalize hf : newFrame m r start count wanted = f at hget ⊢
  have hbase : f.base = start + 1 := by rw [← hf]; rfl
  have htop : f.top = f.base + f.prototype.window.toNat := rfl
  constructor
  · intro i v hi hv
    have hc : i < count := by
      rw [← Arena.length_readRange m.arena (start + 1) count]
      exact (List.getElem?_eq_some_iff.1 hv).1
    rw [Arena.getElem?_readRange _ hc, Option.some_inj] at hv
    rw [hget, if_neg (by omega), hbase, hv]
  · intro i hi hw
    rw [Arena.length_readRange] at hi
    rw [hget, if_pos (by omega)]
  · rw [Arena.drop_readRange, ← hf]
    rfl
  · intro j hj
    rw [hget, if_neg (by omega)]

/-- A new frame finds its arguments in its parameters, nil in the rest of its window, and the surplus if it takes it. A
parameter behind the window that has no argument reads as its slot did. -/
theorem parameters_passed {r : Ref .closure} {start count : Nat} {wanted : Option Nat}
    (h : pushFrame r start count wanted m = .ret () m') :
    ∃ f, m'.frame? = some f ∧ f.closure = m.heap.closure r ∧ f.base = start + 1 ∧
      (∀ i, i < count → i < f.prototype.params.toNat →
        m'.arena.get (f.base + i) = m.arena.get (start + 1 + i)) ∧
      (∀ i, count ≤ i → i < f.prototype.params.toNat → m'.arena.get (f.base + i) =
        if i < f.prototype.window.toNat then .nil else m.arena.get (f.base + i)) ∧
      (∀ i, f.prototype.params.toNat ≤ i → i < f.prototype.window.toNat →
        m'.arena.get (f.base + i) = .nil) ∧
      f.varargs = (if f.prototype.isVararg then
        (m.arena.readRange (start + 1) count).drop f.prototype.params.toNat else []) ∧
      ∀ j, j < f.base → m'.arena.get j = m.arena.get j := by
  have hr := receives_of_pushFrame h
  refine ⟨newFrame m r start count wanted, ?_, rfl, rfl, ?_, ?_, ?_, hr.surplus, fun j hj => ?_⟩
  · rw [frame?, (pushFrame_ret h).1]
    rfl
  · intro i hc hi
    exact hr.given i _ hi (Arena.getElem?_readRange _ hc)
  · intro i hc hi
    split
    · rename_i hw
      exact hr.rest i (.inl (by rwa [Arena.length_readRange])) hw
    · rename_i hw
      exact hr.outside _ (.inr (Nat.add_le_add_left (Nat.le_of_not_lt hw) _))
  · intro i hi hw
    exact hr.rest i (.inr hi) hw
  · exact hr.outside j (.inl hj)

/-- A function of three parameters that claims a window of one register, and returns its parameters. -/
def narrow : Prototype where
  name := "narrow"
  source := "test"
  params := 3
  window := 1
  code := #[.abc .ret 0 (.register 4) (.register 0)]

/-- Calls the function without arguments, below registers that are in use. -/
def crowd : Prototype where
  name := "main"
  source := "test"
  window := 4
  code := #[.asbx .loadI 1 7, .asbx .loadI 2 8, .asbx .loadI 3 9, .abx .closure 0 0,
    .abc .call 0 (.register 1) (.register 0), .abc .ret 0 (.register 0) (.register 0)]
  children := [narrow]

/-- The argument is passed, the parameters behind it keep what their slots hold. -/
theorem parameters_passed_narrow :
    let m := ((bare ⟨4, 64, 8, 8⟩).load narrow).2.modifyArena (·.putRange 1 [.int 7, .int 8, .int 9])
    ∃ m' f, pushFrame ⟨0⟩ 0 1 none m = .ret () m' ∧ m'.frame? = some f ∧
      m'.arena.get f.base = .int 7 ∧ m'.arena.get (f.base + 1) = .int 8 := by
  intro m
  let m' := match pushFrame ⟨0⟩ 0 1 none m with
    | .ret _ m' => m'
    | _ => m
  have h : pushFrame ⟨0⟩ 0 1 none m = .ret () m' := rfl
  obtain ⟨f, hf, hc, hb, hgiven, hmissing, -⟩ := parameters_passed h
  have hp : f.prototype = narrow := congrArg Closure.prototype hc
  rw [hp] at hgiven hmissing
  refine ⟨m', f, h, hf, (hgiven 0 (by decide) (by decide)).trans rfl, ?_⟩
  rw [hmissing 1 (by decide) (by decide), hb]
  rfl

/-- Two of the three parameters are not nil, though there are no arguments. -/
theorem missing_parameters_stale :
    ((serve (fun _ _ => .done []) 9 (.call (.closure ⟨0⟩) []) ((bare ⟨4, 64, 8, 8⟩).load crowd).2).bind
      fun p => p.1.toOption.map Reply.values) = some [.nil, .int 8, .int 9] := by
  decide +kernel

end Exec
end RegisterMachine
