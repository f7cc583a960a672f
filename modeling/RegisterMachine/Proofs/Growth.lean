import Mathlib.Order.Bounds.Basic
import RegisterMachine.Proofs.Bounds

/-! Arenas as memories. An operation is done as a whole or refused; it changes the slots that it addresses and no
others, and the arena grows by doublings, up to its limit. With numbers of 64 bits it comes to the same below a limit
of 2^63, where the end of what is written fits. -/
namespace RegisterMachine

namespace Arena

variable {a : Arena} {op : Op} {limit : Nat}

theorem exists_isLeast_doubled {size i : Nat} (hsize : 0 < size) (hi : size ≤ i) :
    ∃ n, n ≠ 0 ∧ doubled size i = size * 2 ^ n ∧ IsLeast {n | i < size * 2 ^ n} n := by
  have heq : doubled size i = size * 2 ^ ((i / size).log2 + 1) := Nat.shiftLeft_eq ..
  have hq : i / size ≠ 0 := Nat.ne_of_gt (Nat.div_pos hi hsize)
  refine ⟨_, Nat.succ_ne_zero _, heq, ?_, fun k hk => ?_⟩
  · show i < size * 2 ^ _
    rw [← heq]
    exact lt_doubled hsize i
  · -- fewer doublings than the quotient has binary digits do not reach the index
    by_contra hlt
    have hpow : 2 ^ k ≤ i / size :=
      (Nat.pow_le_pow_right Nat.two_pos (by omega)).trans (Nat.log2_self_le hq)
    have hle : size * 2 ^ k ≤ i := (Nat.mul_le_mul_left size hpow).trans (Nat.mul_div_le i size)
    exact absurd hk (Nat.not_lt.2 hle)

theorem isLeast_zero {p : Nat → Prop} (h : p 0) : IsLeast {n | p n} 0 := ⟨h, fun _ _ => Nat.zero_le _⟩

theorem capacity_grow_eq (a : Arena) (i : Nat) : (a.grow i).capacity =
    if i < a.capacity then a.capacity
    else max a.capacity (min (doubled (max a.capacity 1) i) a.limit) := by
  rw [grow, capacity, capacity]
  by_cases hi : i < a.slots.size
  · rw [if_pos hi, if_pos hi]
  · rw [if_neg hi, if_neg hi, Array.size_append, Array.size_replicate]
    omega

theorem Bounded.capacity_grow (h : a.Bounded limit) {i : Nat} (hi : i < max 1 limit) :
    ∃ n, IsLeast {n | i < a.capacity * 2 ^ n} n ∧
      (a.grow i).capacity = if n = 0 then a.capacity else min (a.capacity * 2 ^ n) limit := by
  have hpos : 1 ≤ a.capacity := h.pos
  rw [capacity_grow_eq, h.own, Nat.max_eq_left hpos]
  by_cases hin : i < a.capacity
  · refine ⟨0, isLeast_zero (by rwa [Nat.pow_zero, Nat.mul_one]), ?_⟩
    rw [if_pos hin, if_pos rfl]
  · obtain ⟨n, hn, heq, hleast⟩ := exists_isLeast_doubled hpos (Nat.le_of_not_lt hin)
    have hcover : i < a.capacity * 2 ^ n := hleast.1
    refine ⟨n, hleast, ?_⟩
    rw [if_neg hin, if_neg hn, heq]
    omega

namespace Op

/-- The indices that an operation touches, in order. -/
def touched : Op → List Nat
  | .put i _ => [i]
  | .grow i => [i]
  | .putRange start vs => List.range' start vs.length
  | .clearRange start stop => List.range' start (stop - start)

/-- What an operation writes to a slot, if it does. -/
def written? : Op → Nat → Option Value
  | .put i v, j => if j = i then some v else none
  | .grow _, _ => none
  | .putRange start vs, j => if start ≤ j then vs[j - start]? else none
  | .clearRange start stop, j => if start ≤ j ∧ j < stop then some .nil else none

theorem touched_lt_iff (op : Op) (bound : Nat) :
    (∀ i ∈ op.touched, i < bound) ↔ ∀ i, op.last? = some i → i < bound := by
  have range (start count : Nat) : (∀ i ∈ List.range' start count, i < bound) ↔
      ∀ i, lastSlot? start count = some i → i < bound := by
    simp only [List.mem_range'_1, lastSlot?, Option.ite_none_left_eq_some, Option.some.injEq]
    constructor
    · rintro h i ⟨hne, rfl⟩
      exact h _ (by omega)
    · intro h i hi
      have := h _ ⟨by omega, rfl⟩
      omega
  cases op with
  | put i v => simp [touched, last?]
  | grow i => simp [touched, last?]
  | putRange start vs => exact range start vs.length
  | clearRange start stop => exact range start (stop - start)

end Op

theorem Bounded.fits_iff_touched (h : a.Bounded limit) (op : Op) :
    op.fits a ↔ ∀ i ∈ op.touched, i < a.capacity ∨ i < limit := by
  rw [h.fits_iff, ← op.touched_lt_iff]
  refine forall₂_congr fun i _ => ?_
  rw [← h.admits_iff, Arena.admits_iff, h.own, capacity]

/-- A slot is there even where the limit is zero, and it is the only one. -/
example : ∀ i < 4, (Op.put i .nil).fits (create 5 0) = decide (i = 0) := by
  decide +kernel

theorem get_apply (h : op.fits a) (j : Nat) : (op.apply a).get j = (op.written? j).getD (a.get j) := by
  cases op with
  | put i v =>
    by_cases hj : j = i
    · subst hj
      rw [Op.written?, if_pos rfl]
      exact get_put h v
    · rw [Op.written?, if_neg hj]
      exact get_put_of_ne a (Ne.symm hj) v
  | grow i => exact get_grow a i j
  | putRange start vs =>
    refine (get_putRange h j).trans ?_
    rw [Op.written?]
    split
    · exact List.getD_eq_getElem?_getD ..
    · rfl
  | clearRange start stop =>
    refine (get_clearRange a start stop j).trans ?_
    rw [Op.written?]
    split <;> rfl

theorem capacity_apply_eq (op : Op) (a : Arena) :
    (op.apply a).capacity = (op.last?.elim a a.grow).capacity := by
  cases op with
  | put i v => exact Array.size_setIfInBounds ..
  | grow i => rfl
  | putRange start vs =>
    show (a.putRange start vs).capacity = _
    rw [putRange, Op.last?, lastSlot?]
    cases vs with
    | nil => rfl
    | cons v vs => exact size_putAll ..
  | clearRange start stop =>
    show (a.clearRange start stop).capacity = _
    rw [clearRange, Op.last?, lastSlot?]
    by_cases hle : stop ≤ start
    · rw [if_pos hle, if_pos (by omega)]
      rfl
    · rw [if_neg hle, if_neg (by omega), show start + (stop - start) - 1 = stop - 1 by omega]
      exact size_wipe ..

/-- The new size is the first doubling of the old one that covers all that is touched, cut at the limit; it is the old
one if that covers it. -/
theorem Bounded.capacity_apply (h : a.Bounded limit) (hfit : op.fits a) :
    ∃ n, IsLeast {n | ∀ i ∈ op.touched, i < a.capacity * 2 ^ n} n ∧
      (op.apply a).capacity = if n = 0 then a.capacity else min (a.capacity * 2 ^ n) limit := by
  have hlast := (h.fits_iff op).1 hfit
  simp only [Op.touched_lt_iff, capacity_apply_eq]
  cases hop : op.last? with
  | none => exact ⟨0, isLeast_zero nofun, rfl⟩
  | some i =>
    simp only [Option.some.injEq, forall_eq']
    exact h.capacity_grow (hlast i hop)

theorem wrap64_eq {n : Nat} (h : n < 2 ^ 64) : wrap64 n = n := Nat.mod_eq_of_lt h

theorem le_two_mul_of_isLeast {i size n : Nat} (hn : n ≠ 0) (hleast : IsLeast {n | i < size * 2 ^ n} n) :
    size * 2 ^ n ≤ 2 * i := by
  obtain ⟨k, rfl⟩ := Nat.exists_eq_succ_of_ne_zero hn
  have hk : size * 2 ^ k ≤ i := Nat.le_of_not_lt fun hk => Nat.not_succ_le_self k (hleast.2 hk)
  rw [Nat.pow_succ', Nat.mul_left_comm]
  exact Nat.mul_le_mul_left 2 hk

theorem double?_eq {i size n rounds : Nat} (hleast : IsLeast {n | i < size * 2 ^ n} n)
    (hfit : size * 2 ^ n < 2 ^ 64) (hrounds : n < rounds) : double? rounds i size = some (size * 2 ^ n) := by
  induction rounds generalizing n size with
  | zero => exact absurd hrounds (Nat.not_lt_zero n)
  | succ rounds ih =>
    rw [double?]
    cases n with
    | zero =>
      have hi : i < size * 2 ^ 0 := hleast.1
      rw [Nat.pow_zero, Nat.mul_one] at hi ⊢
      rw [if_pos hi]
    | succ n =>
      have hi : ¬i < size := fun hi => Nat.not_succ_le_zero n (hleast.2 (by simpa using hi))
      have hpow (k : Nat) : size * 2 ^ (k + 1) = size * 2 * 2 ^ k := by
        rw [Nat.pow_succ', Nat.mul_assoc]
      -- after one round, one doubling less is left
      have hnext : IsLeast {n | i < size * 2 * 2 ^ n} n := by
        refine ⟨?_, fun k hk => Nat.le_of_succ_le_succ (hleast.2 ?_)⟩
        · have hmem : i < size * 2 ^ (n + 1) := hleast.1
          rwa [hpow] at hmem
        · show i < size * 2 ^ (k + 1)
          rwa [hpow]
      rw [hpow] at hfit ⊢
      have hle : size * 2 ≤ size * 2 * 2 ^ n := Nat.le_mul_of_pos_right _ (Nat.two_pow_pos n)
      rw [if_neg hi, wrap64_eq (Nat.lt_of_le_of_lt hle hfit)]
      exact ih hnext hfit (Nat.lt_of_succ_lt_succ hrounds)

section

variable (hlimit : limit < 2 ^ 63) (h : a.Bounded limit)

include hlimit h

theorem grow?_eq (i : Nat) :
    a.grow? i = some (if a.admits i then (.ok (), a.grow i) else (.error .stackOverflow, a)) := by
  have hpos := h.pos
  have hadmits : a.admits i = true ↔ i < a.slots.size ∨ i < limit := by rw [admits_iff, h.own]
  rw [grow?, h.own]
  by_cases hin : i < a.slots.size
  · rw [if_pos hin, if_pos (hadmits.2 (.inl hin)), grow, if_pos hin]
  rw [if_neg hin]
  by_cases hover : limit ≤ i
  · rw [if_pos hover, if_neg fun ha => absurd (hadmits.1 ha) (by omega)]
  · obtain ⟨n, hn, heq, hleast⟩ := exists_isLeast_doubled hpos (Nat.le_of_not_lt hin)
    have hfit := le_two_mul_of_isLeast hn hleast
    have hrounds : n < 64 := by
      refine (Nat.pow_lt_pow_iff_right Nat.one_lt_two).1 ?_
      have hle : 2 ^ n ≤ a.slots.size * 2 ^ n := Nat.le_mul_of_pos_left _ hpos
      omega
    have hcover : i < a.slots.size * 2 ^ n := hleast.1
    rw [if_neg hover, if_pos (hadmits.2 (.inr (Nat.lt_of_not_le hover))), Nat.max_eq_left hpos,
      double?_eq hleast (by omega) hrounds, Option.map_some, resize, Array.take_eq_extract,
      Array.extract_eq_self_of_le (by omega), grow, if_neg hin, Nat.max_eq_left hpos, heq, h.own]

/-- The slots to be changed are there once the arena has grown. -/
theorem growThen?_eq {i start : Nat} (hstart : start ≤ i + 1) (change : Array Value → Array Value) :
    a.growThen? i start (i + 1) change =
      some (if a.admits i then (.ok (), { a.grow i with slots := change (a.grow i).slots })
        else (.error .stackOverflow, a)) := by
  rw [growThen?, grow?_eq hlimit h, Option.bind_some]
  by_cases ha : a.admits i = true
  · rw [if_pos ha, if_pos ha]
    have hthere : i + 1 ≤ (a.grow i).slots.size := lt_size_grow ha
    simp only [hstart, hthere, decide_true, Bool.and_self, if_true]
  · rw [if_neg ha, if_neg ha]

theorem run?_eq (hend : op.EndFits) :
    op.run? a = some (if op.fits a then (.ok (), op.apply a) else (.error .stackOverflow, a)) := by
  cases op with
  | put i v => exact growThen?_eq hlimit h (Nat.le_succ i) (·.setIfInBounds i v)
  | grow i => exact grow?_eq hlimit h i
  | putRange start vs =>
    cases vs with
    | nil => rfl
    | cons v vs =>
      have hend : start + (vs.length + 1) < UInt64.size := hend
      -- one less than the end is the last index
      have hlast : wrap64 (start + (vs.length + 1) + (UInt64.size - 1)) = start + vs.length := by
        rw [wrap64]
        rw [UInt64.size] at hend ⊢
        omega
      rw [Op.run?, if_neg (by simp), List.length_cons, wrap64_eq hend, hlast]
      exact growThen?_eq hlimit h (i := start + vs.length) (by omega) (putAll · start (v :: vs))
  | clearRange start stop =>
    by_cases hle : stop ≤ start
    · have hfits : (Op.clearRange start stop).fits a = true := admitsRange_iff.2 (.inl (by omega))
      rw [if_pos hfits, Op.run?, if_pos hle]
      show _ = some (Except.ok (), a.clearRange start stop)
      rw [clearRange, if_pos hle]
    · obtain ⟨i, rfl⟩ := Nat.exists_eq_succ_of_ne_zero (show stop ≠ 0 by omega)
      have hlast : start + (i.succ - start) - 1 = i := by omega
      have hfits : (Op.clearRange start i.succ).fits a = a.admits i := by
        rw [Op.fits, admitsRange, lastSlot?, if_neg (by omega), hlast]
      rw [hfits, Op.run?, if_neg hle]
      refine (growThen?_eq hlimit h (by omega : start ≤ i + 1) (wipe · start (i + 1 - start))).trans ?_
      show _ = some (if a.admits i then (Except.ok (), a.clearRange start i.succ) else _)
      rw [clearRange, if_neg hle]
      rfl

end

/-- What an operation that comes to a result makes of an arena, below a limit. -/
structure Op.Settles (limit : Nat) (op : Op) (a : Arena) (r : Except Fault Unit) (a' : Arena) : Prop where
  /-- It is done if all that it touches is there or below the limit. -/
  succeeds : r = .ok () ↔ ∀ i ∈ op.touched, i < a.capacity ∨ i < limit
  fails : r ≠ .ok () → r = .error .stackOverflow ∧ a' = a
  /-- The slots that it writes to hold what it writes, all others what they held. -/
  reads : r = .ok () → ∀ j, a'.get j = (op.written? j).getD (a.get j)
  /-- The new size is the first doubling of the old one that covers all that is touched, cut at the limit. -/
  grows : r = .ok () → ∃ n, IsLeast {n | ∀ i ∈ op.touched, i < a.capacity * 2 ^ n} n ∧
    a'.capacity = if n = 0 then a.capacity else min (a.capacity * 2 ^ n) limit
  keeps : a.capacity ≤ a'.capacity

theorem le_capacity_apply (op : Op) (a : Arena) : a.capacity ≤ (op.apply a).capacity := by
  rw [capacity_apply_eq]
  cases op.last? with
  | none => exact Nat.le_refl _
  | some i =>
    rw [Option.elim, capacity_grow_eq]
    split
    · exact Nat.le_refl _
    · exact Nat.le_max_left _ _

theorem settles_apply (h : a.Bounded limit) (hfit : op.fits a) : op.Settles limit a (.ok ()) (op.apply a) where
  succeeds := iff_of_true rfl ((h.fits_iff_touched op).1 hfit)
  fails hr := absurd rfl hr
  reads _ := get_apply hfit
  grows _ := h.capacity_apply hfit
  keeps := le_capacity_apply op a

theorem settles_self (h : a.Bounded limit) (hfit : ¬op.fits a) :
    op.Settles limit a (.error .stackOverflow) a where
  succeeds := iff_of_false nofun fun hall => hfit ((h.fits_iff_touched op).2 hall)
  fails _ := ⟨rfl, rfl⟩
  reads := nofun
  grows := nofun
  keeps := Nat.le_refl _

/-- What a machine does for an operation on the arena of its running fiber. -/
def Op.exec : Op → Exec Unit
  | .put i v => Exec.setSlot i v
  | .grow i => Exec.ensureSlot i
  | .putRange start vs => Exec.writeRange start vs
  | .clearRange start stop => Exec.clearRange start stop

/-- A machine comes to the same, and a refused operation leaves all of it as it was. -/
def Op.Performs (op : Op) (a : Arena) (r : Except Fault Unit) (a' : Arena) : Prop :=
  ∀ m : Machine, m.arena = a →
    ∃ m', Exec.attempt op.exec m = .ret r m' ∧ m'.arena = a' ∧ (r ≠ .ok () → m' = m)

theorem Op.exec_eq (op : Op) : op.exec = Exec.write op := by
  cases op <;> rfl

theorem attempt_exec (op : Op) (m : Machine) : Exec.attempt op.exec m =
    if op.fits m.arena then .ret (.ok ()) (m.modifyArena op.apply) else .ret (.error .stackOverflow) m := by
  rw [op.exec_eq, Exec.attempt, Exec.write]
  split <;> rfl

theorem performs_apply (hfit : op.fits a) : op.Performs a (.ok ()) (op.apply a) := by
  rintro m rfl
  refine ⟨_, (attempt_exec op m).trans (if_pos hfit), ?_, fun hr => absurd rfl hr⟩
  exact Machine.arena_modifyArena hfit

theorem performs_self (hfit : ¬op.fits a) : op.Performs a (.error .stackOverflow) a := by
  rintro m rfl
  exact ⟨m, (attempt_exec op m).trans (if_neg hfit), rfl, fun _ => rfl⟩

theorem run?_settles (hlimit : limit < 2 ^ 63) (h : a.Bounded limit) (hend : op.EndFits) :
    ∃ r a', op.run? a = some (r, a') ∧ op.Settles limit a r a' ∧ op.Performs a r a' ∧ a'.Bounded limit := by
  rw [run?_eq hlimit h hend]
  split
  · rename_i hfit
    exact ⟨_, _, rfl, settles_apply h hfit, performs_apply hfit, h.apply op⟩
  · rename_i hfit
    exact ⟨_, _, rfl, settles_self h hfit, performs_self hfit, h⟩

theorem runs?_cons {ops : List Op} {a' a'' : Arena} {r : Except Fault Unit} {rs : List (Except Fault Unit)}
    (hr : op.run? a = some (r, a')) (hrs : Op.runs? ops a' = some (rs, a'')) :
    Op.runs? (op :: ops) a = some (r :: rs, a'') := by
  rw [Op.runs?, hr, Option.bind_some]
  show (Op.runs? ops a').map _ = _
  rw [hrs, Option.map_some]

theorem runs?_append {ops ops' : List Op} {a' a'' : Arena} {rs rs' : List (Except Fault Unit)}
    (hrs : Op.runs? ops a = some (rs, a')) (hrs' : Op.runs? ops' a' = some (rs', a'')) :
    Op.runs? (ops ++ ops') a = some (rs ++ rs', a'') := by
  induction ops generalizing a rs with
  | nil =>
    cases hrs
    exact hrs'
  | cons op ops ih =>
    rw [Op.runs?] at hrs
    obtain ⟨⟨r, a₁⟩, hr, hrest⟩ := Option.bind_eq_some_iff.1 hrs
    obtain ⟨⟨rs₁, a₂⟩, hops, ⟨⟩⟩ := Option.map_eq_some_iff.1 hrest
    exact runs?_cons hr (ih hops)

theorem exists_runs? (hlimit : limit < 2 ^ 63) (h : a.Bounded limit) (ops : List Op)
    (hends : ∀ op ∈ ops, op.EndFits) : ∃ rs a', Op.runs? ops a = some (rs, a') ∧ a'.Bounded limit := by
  induction ops generalizing a with
  | nil => exact ⟨[], a, rfl, h⟩
  | cons op ops ih =>
    obtain ⟨r, a₁, hr, -, -, h₁⟩ := run?_settles hlimit h (hends op List.mem_cons_self)
    obtain ⟨rs, a', hrs, h'⟩ := ih h₁ fun op hop => hends op (List.mem_cons_of_mem _ hop)
    exact ⟨r :: rs, a', runs?_cons hr hrs, h'⟩

/-- At every place of a sequence of operations on a new arena, an operation is done as a whole or refused, and the
machine does the same. What is behind the end reads as nil. -/
theorem memory_atomic_bounded {initial limit : Nat} (hlimit : limit < 2 ^ 63) (before behind : List Op) (op : Op)
    (hends : ∀ op' ∈ before ++ op :: behind, op'.EndFits) :
    ((create initial limit).capacity = max 1 (min initial limit) ∧ ∀ j, (create initial limit).get j = .nil) ∧
      ∃ rs a r a' rs' a'', Op.runs? before (create initial limit) = some (rs, a) ∧ op.run? a = some (r, a') ∧
        Op.runs? behind a' = some (rs', a'') ∧
        Op.runs? (before ++ op :: behind) (create initial limit) = some (rs ++ r :: rs', a'') ∧
        op.Settles limit a r a' ∧ op.Performs a r a' ∧
        a'.capacity ≤ max 1 limit ∧ ∀ j, a'.capacity ≤ j → a'.get j = .nil := by
  simp only [List.forall_mem_append, List.forall_mem_cons] at hends
  obtain ⟨hbefore, hend, hbehind⟩ := hends
  refine ⟨⟨?_, get_create initial limit⟩, ?_⟩
  · rw [capacity, create, Array.size_replicate]
    omega
  · obtain ⟨rs, a, hrs, h⟩ := exists_runs? hlimit (bounded_create initial limit) before hbefore
    obtain ⟨r, a', hr, hsettles, hperforms, h'⟩ := run?_settles hlimit h hend
    obtain ⟨rs', a'', hrs', -⟩ := exists_runs? hlimit h' behind hbehind
    refine ⟨rs, a, r, a', rs', a'', hrs, hr, hrs', runs?_append hrs (runs?_cons hr hrs'), hsettles, hperforms,
      h'.size, fun j hj => ?_⟩
    exact dif_neg (Nat.not_lt.2 hj)

/-- Three slots become six and then ten, where twelve would be the next doubling; what goes beyond is refused. -/
theorem memory_atomic_bounded_cut :
    let before : List Op := [.put 3 (.int 1), .putRange 9 [.int 2, .int 3]]
    let op : Op := .putRange 6 [.int 2, .int 3]
    10 < 2 ^ 63 ∧ (∀ op' ∈ before ++ op :: [], op'.EndFits) ∧
      ∃ a a', Op.runs? before (create 3 10) = some ([.ok (), .error .stackOverflow], a) ∧ a.capacity = 6 ∧
        op.run? a = some (.ok (), a') ∧ op.Settles 10 a (.ok ()) a' ∧ op.Performs a (.ok ()) a' ∧
        a'.capacity = 10 ∧ a'.readRange 2 7 = [.nil, .int 1, .nil, .nil, .int 2, .int 3, .nil] := by
  intro before op
  have hends : ∀ op' ∈ before ++ op :: [], op'.EndFits := by decide
  obtain ⟨-, rs, a, r, a', -, -, hrs, hr, -, -, hsettles, hperforms, -⟩ :=
    @memory_atomic_bounded 3 10 (by decide) before [] op hends
  have hbefore : Op.runs? before (create 3 10) = some ([.ok (), .error .stackOverflow],
      (create 3 10).put 3 (.int 1)) := rfl
  obtain ⟨rfl, rfl⟩ := Prod.mk.inj (Option.some.inj (hbefore.symm.trans hrs))
  have hop : op.run? ((create 3 10).put 3 (.int 1)) =
      some (.ok (), op.apply ((create 3 10).put 3 (.int 1))) := rfl
  obtain ⟨rfl, rfl⟩ := Prod.mk.inj (Option.some.inj (hop.symm.trans hr))
  exact ⟨by decide, hends, _, _, hbefore, by decide +kernel, hop, hsettles, hperforms, by decide +kernel,
    by decide +kernel⟩

/-- Where the end of what is written has no number of 64 bits, the last index wraps around to a slot that is there, and
the range is missing: the write comes to nothing, though no index that it addresses is below the limit. -/
theorem end_beyond_words :
    let op : Op := .putRange (2 ^ 64 - 1) [.int 1, .int 2]
    8 < 2 ^ 63 ∧ ¬op.EndFits ∧ (∀ i ∈ op.touched, ¬(i < (create 4 8).capacity ∨ i < 8)) ∧
      op.run? (create 4 8) = none ∧
      ¬∃ r a', op.run? (create 4 8) = some (r, a') ∧ op.Settles 8 (create 4 8) r a' := by
  intro op
  have hrun : op.run? (create 4 8) = none := by decide +kernel
  refine ⟨by decide, by decide, by decide +kernel, hrun, ?_⟩
  rintro ⟨r, a', hr, -⟩
  cases hrun.symm.trans hr

end Arena
end RegisterMachine
