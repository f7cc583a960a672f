import RegisterMachine.Proofs.Division
import RegisterMachine.Proofs.OpenLists
import RegisterMachine.Proofs.Windows

/-! The rounds of a loop over integers. It goes through an arithmetic progression, of exact numbers, and through
nothing else, whatever its body does to other registers: the two instructions agree on which numbers these are, up
to both ends of the range. -/
namespace RegisterMachine

open Machine Exec

namespace Instruction

def Past (limit step v : ℤ) : Prop := if 0 < step then limit < v else v < limit

instance (limit step v : ℤ) : Decidable (Past limit step v) := by
  unfold Past
  infer_instance

def roundCount (first limit step : ℤ) : ℕ := ((limit - first).fdiv step + 1).toNat

/-- These numbers. -/
def progression (first limit step : ℤ) : List ℤ :=
  (List.range (roundCount first limit step)).map fun k : ℕ => first + k * step

variable {first limit step : ℤ}

theorem length_progression : (progression first limit step).length = roundCount first limit step := by
  rw [progression, List.length_map, List.length_range]

theorem roundCount_eq (first limit step : ℤ) :
    (roundCount first limit step : ℤ) = max 0 (⌊((limit - first : ℤ) : ℚ) / step⌋ + 1) := by
  rw [roundCount, Division.fdiv_eq_floor]
  omega

theorem lt_roundCount_iff (first limit : ℤ) (h : step ≠ 0) (k : ℕ) :
    k < roundCount first limit step ↔ ¬Past limit step (first + k * step) := by
  have hcount : k < roundCount first limit step ↔ (k : ℤ) ≤ (limit - first).fdiv step := by
    rw [roundCount]
    omega
  rw [hcount, Past]
  obtain hneg | hpos := lt_or_gt_of_ne h
  · rw [if_neg (by omega), ← Int.neg_fdiv_neg, Int.fdiv_eq_ediv_of_nonneg _ (by omega),
      Int.le_ediv_iff_mul_le (by omega), Int.mul_neg]
    omega
  · rw [if_pos hpos, Int.fdiv_eq_ediv_of_nonneg _ hpos.le, Int.le_ediv_iff_mul_le hpos]
    omega

example : progression 10 1 (-4) = [10, 6, 2] := by decide

theorem take_progression_succ {k : ℕ} (h : k < roundCount first limit step) :
    (progression first limit step).take (k + 1) =
      (progression first limit step).take k ++ [first + k * step] := by
  have hk : (progression first limit step)[k]? = some (first + k * step) := by
    rw [progression, List.getElem?_map, List.getElem?_range h]
    rfl
  rw [List.take_add_one, hk]
  rfl

namespace Counter

theorem goesOn_ints (i l s : Int64) : (Counter.ints i l s).goesOn ↔ ¬Past l.toInt s.toInt i.toInt := by
  have hpos : (0 < s) ↔ 0 < s.toInt := Int64.lt_iff_toInt_lt
  rw [goesOn, Past]
  split
  next h => rw [if_pos (hpos.1 h), decide_eq_true_eq, Int64.le_iff_toInt_le, not_lt]
  next h => rw [if_neg (mt hpos.2 h), decide_eq_true_eq, Int64.le_iff_toInt_le, not_lt]

theorem past_of_add?_eq_none {i s : Int64} (l : Int64) (h : Checked.add? i s = none) :
    Past l.toInt s.toInt (i.toInt + s.toInt) := by
  have hmin := Int64.toInt_minValue
  have hmax := Int64.toInt_maxValue
  have hi := i.le_toInt
  have hi' := i.toInt_lt
  have hl := l.le_toInt
  have hl' := l.toInt_lt
  have hout : ¬(Int64.minValue.toInt ≤ i.toInt + s.toInt ∧ i.toInt + s.toInt ≤ Int64.maxValue.toInt) := by
    rintro ⟨hlow, hhigh⟩
    rw [Checked.add?, Checked.fit?_eq_some hlow hhigh] at h
    cases h
  rw [Past]
  split <;> omega

/-- An integer is advanced unless that leads beyond the limit. -/
theorem advance?_ints (i l s : Int64) :
    (Past l.toInt s.toInt (i.toInt + s.toInt) ∧ (Counter.ints i l s).advance?.filter goesOn = none) ∨
    (¬Past l.toInt s.toInt (i.toInt + s.toInt) ∧ ∃ v : Int64, v.toInt = i.toInt + s.toInt ∧
      (Counter.ints i l s).advance?.filter goesOn = some (.ints v l s)) := by
  rw [advance?]
  cases hadd : Checked.add? i s with
  | none => exact .inl ⟨past_of_add?_eq_none l hadd, rfl⟩
  | some v =>
    have hv : i.toInt + s.toInt = v.toInt := Checked.fit?_eq_some_iff.1 hadd
    rw [hv, Option.map_some, Option.filter_some]
    split
    next h => exact .inr ⟨(goesOn_ints v l s).1 h, v, rfl, rfl⟩
    next h => exact .inl ⟨not_not.1 (mt (goesOn_ints v l s).2 h), rfl⟩

end Counter

variable {host : Host} {m : Machine} {f : Frame} {w : Word} {i l s : Int64}

theorem jump_eq {offset : ℤ} {pc : ℕ} (hf : m.frame? = some f) (h : f.pc + offset = pc)
    (hle : pc ≤ f.prototype.code.size) :
    jump offset m = .ret () (m.modifyFrame fun f => { f with pc }) := by
  have hj : f.jump? offset = some { f with pc } := by
    rw [Frame.jump?, h]
    simp [hle]
  rw [jump, hf]
  simp only [hj]

/-- A loop over integers is entered with the first one, or left. -/
theorem forPrep_ints (hf : m.frame? = some f) (hi : m.arena.get (f.base + w.a.toNat) = .int i)
    (hl : m.arena.get (f.base + w.a.toNat + 1) = .int l) (hs : m.arena.get (f.base + w.a.toNat + 2) = .int s) :
    forPrep w m =
      if s = 0 then .raise .forStepZero m
      else if Past l.toInt s.toInt i.toInt then jump (w.sbx.toInt + 1) m
      else setSlot (f.base + w.a.toNat + 3) (.int i) m := by
  have hnumber {v : Value} {n : Number} (what : String) (h : v.number? = some n) : loopNumber v what m = .ret n m := by
    rw [loopNumber, h]
    rfl
  have hzero : (Counter.ofNumbers (.int i) (.int l) (.int s)).isStepZero = decide (s = 0) := rfl
  have hgo : (Counter.ints i l s).goesOn = !decide (Past l.toInt s.toInt i.toInt) := by
    rw [Bool.eq_iff_iff, Counter.goesOn_ints, Bool.not_eq_true', decide_eq_false_iff_not]
  unfold forPrep
  simp only [bind_eq, Exec.base, Exec.read, Exec.slot, Step.bind, base_eq hf, hi, hl, hs,
    hnumber (v := .int i) "initial value" rfl, hnumber (v := .int l) "limit" rfl,
    hnumber (v := .int s) "step" rfl, hzero, decide_eq_true_eq]
  split
  · rfl
  · show (if (Counter.ints i l s).goesOn then _ else _ : Exec Unit) m = _
    rw [hgo]
    by_cases hpast : Past l.toInt s.toInt i.toInt
    · simp only [hpast, decide_true, Bool.not_true, Bool.false_eq_true, if_false, if_true]
    · simp only [hpast, decide_false, Bool.not_false, if_false, if_true]
      rw [bind_eq]
      simp only [Exec.read, Step.bind, hi]

/-- It goes on with the next one, or is left. -/
theorem forLoop_ints (hf : m.frame? = some f) (hi : m.arena.get (f.base + w.a.toNat) = .int i)
    (hl : m.arena.get (f.base + w.a.toNat + 1) = .int l) (hs : m.arena.get (f.base + w.a.toNat + 2) = .int s) :
    (Past l.toInt s.toInt (i.toInt + s.toInt) ∧ forLoop w m = .ret () m) ∨
    (¬Past l.toInt s.toInt (i.toInt + s.toInt) ∧ ∃ v : Int64, v.toInt = i.toInt + s.toInt ∧
      forLoop w m = (setSlot (f.base + w.a.toNat) (.int v) >>= fun _ =>
        setSlot (f.base + w.a.toNat + 3) (.int v) >>= fun _ => jump w.sbx.toInt) m) := by
  have hcounter : Counter.ofNumbers (loopFloat (.int i)) (loopFloat (.int l)) (loopFloat (.int s)) = .ints i l s := rfl
  obtain ⟨hpast, hnext⟩ | ⟨hpast, v, hv, hnext⟩ := Counter.advance?_ints i l s
  · refine .inl ⟨hpast, ?_⟩
    unfold forLoop
    simp only [bind_eq, Exec.base, Exec.read, Exec.slot, Step.bind, base_eq hf, hi, hl, hs, hcounter, hnext]
    rfl
  · refine .inr ⟨hpast, v, hv, ?_⟩
    unfold forLoop
    simp only [bind_eq, Exec.base, Exec.read, Exec.slot, Step.bind, base_eq hf, hi, hl, hs, hcounter, hnext]
    rfl

end Instruction

/-- The two instructions of a loop: the first one goes behind the second, which goes back to what is behind the
first, and they have the same registers. -/
structure Frame.LoopsTo (f : Frame) (w : Word) (stop : ℕ) (w' : Word) : Prop where
  word : f.word? = some w
  opens : w.opcode? = some .forPrep
  target : f.pc + 1 + w.sbx.toInt = stop
  closing : f.prototype.code[stop]? = some w'
  closes : w'.opcode? = some .forLoop
  back : stop + 1 + w'.sbx.toInt = f.pc + 1
  registers : w'.a = w.a

namespace Frame.LoopsTo

variable {f : Frame} {w w' : Word} {stop : ℕ}

theorem pc_lt (h : f.LoopsTo w stop w') : f.pc < f.prototype.code.size := (Array.getElem?_eq_some_iff.1 h.word).1

theorem stop_lt (h : f.LoopsTo w stop w') : stop < f.prototype.code.size :=
  (Array.getElem?_eq_some_iff.1 h.closing).1

theorem stop_ne (h : f.LoopsTo w stop w') : stop ≠ f.pc := by
  rintro rfl
  obtain rfl : w = w' := Option.some.inj (h.word.symm.trans h.closing)
  exact absurd (h.opens.symm.trans h.closes) (by decide)

end Frame.LoopsTo

namespace Machine

/-- The activation of a frame is innermost, and at an instruction. -/
def IsAt (f : Frame) (pc : ℕ) (m : Machine) : Prop :=
  ∃ g, m.frame? = some g ∧ g.closure = f.closure ∧ g.base = f.base ∧ g.pc = pc

theorem IsAt.modifyFrame {f : Frame} {pc pc' : ℕ} {m : Machine} (h : m.IsAt f pc) :
    (m.modifyFrame fun f => { f with pc := pc' }).IsAt f pc' := by
  obtain ⟨g, hg, hclosure, hbase, -⟩ := h
  exact ⟨_, frame?_modifyFrame _ hg, hclosure, hbase, rfl⟩

theorem IsAt.unique {f : Frame} {pc pc' : ℕ} {m : Machine} (h : m.IsAt f pc) (h' : m.IsAt f pc') : pc = pc' := by
  obtain ⟨g, hg, -, -, rfl⟩ := h
  obtain ⟨g', hg', -, -, rfl⟩ := h'
  rw [hg] at hg'
  cases hg'
  rfl

/-- A loop over integers enters its body: its numbers are in the registers, and the index in one more. -/
structure InBody (f : Frame) (start : ℕ) (v l s : Int64) (m : Machine) : Prop where
  isAt : m.IsAt f (f.pc + 1)
  alive : m.isCancelled m.fiber.token = false
  index : m.arena.get start = .int v
  limit : m.arena.get (start + 1) = .int l
  step : m.arena.get (start + 2) = .int s
  copy : m.arena.get (start + 3) = .int v

section

variable {m : Machine} {i j : ℕ} {v : Value} (h : m.arena.admits i)

include h

theorem setSlot_of_admits : setSlot i v m = .ret () (m.modifyArena (·.put i v)) := if_pos h

theorem arena_put : (m.modifyArena (·.put i v)).arena = m.arena.put i v :=
  @arena_modifyArena m (.put i v) h

theorem get_put_self : (m.modifyArena (·.put i v)).arena.get i = v := by
  rw [arena_put h]
  exact Arena.get_put h v

theorem get_put_other (hne : i ≠ j) : (m.modifyArena (·.put i v)).arena.get j = m.arena.get j := by
  rw [arena_put h]
  exact Arena.get_put_of_ne _ hne v

theorem admits_put (j : ℕ) : (m.modifyArena (·.put i v)).arena.admits j ↔ m.arena.admits j := by
  rw [arena_put h]
  exact @Arena.admits_apply _ (.put i v) h j

end

end Machine

/-- The number that an integer stands for. -/
def Value.exact? : Value → Option ℤ
  | .int i => some i.toInt
  | _ => none

namespace Config

/-- An instruction is executed, and nothing is asked on the way. -/
def Executes (host : Host) (c c' : Config) : Prop :=
  ∃ p m m' below, c = .loop p m below ∧ c' = .loop p m' below ∧ Exec.step host p.stop m = .ret none m'

/-- The body of a loop is run: from where it is entered to where the closing instruction is due, with the numbers
in the registers as they were. -/
structure Completes (host : Host) (f : Frame) (start stop : ℕ) (c c' : Config) : Prop where
  leads : LeadsTo host c c'
  due : ∃ p m below g w, c' = .loop p m below ∧ Due m g w ∧ g.closure = f.closure ∧ g.base = f.base ∧ g.pc = stop
  kept : ∀ j < 3, c'.machine.arena.get (start + j) = c.machine.arena.get (start + j)

/-- The rounds of a loop from its opening instruction on, for what counts as a run of its body: the values that
the body is entered with, and where it is entered the last time. -/
inductive Rounds (host : Host) (body : Config → Config → Prop) (f : Frame) (start : ℕ) (c : Config) :
    List Value → Config → Prop
  | first {c' : Config} : Executes host c c' → c'.machine.IsAt f (f.pc + 1) →
      Rounds host body f start c [c'.machine.arena.get (start + 3)] c'
  | next {vs : List Value} {c' d d' : Config} : Rounds host body f start c vs c' → body c' d →
      Executes host d d' → d'.machine.IsAt f (f.pc + 1) →
      Rounds host body f start c (vs ++ [d'.machine.arena.get (start + 3)]) d'

variable {host : Host} {c c' c'' : Config}

theorem Executes.unique (h : Executes host c c') (h' : Executes host c c'') : c' = c'' := by
  obtain ⟨p, m, m', below, rfl, rfl, h⟩ := h
  obtain ⟨_, _, _, _, hc, rfl, h'⟩ := h'
  cases hc
  rw [h] at h'
  cases h'
  rfl

theorem Executes.leadsTo (h : Executes host c c') : LeadsTo host c c' := by
  obtain ⟨p, m, m', below, rfl, rfl, h⟩ := h
  exact leadsTo_loop h

theorem Rounds.eq_loop {body : Config → Config → Prop} {f : Frame} {start : ℕ} {vs : List Value}
    (h : Rounds host body f start c vs c') : ∃ p below, c' = .loop p c'.machine below := by
  cases h with
  | first hex =>
    obtain ⟨p, m, m', below, -, rfl, -⟩ := hex
    exact ⟨p, below, rfl⟩
  | next _ _ hex =>
    obtain ⟨p, m, m', below, -, rfl, -⟩ := hex
    exact ⟨p, below, rfl⟩

theorem not_executes_of_raise {p : Purpose} {m m' : Machine} {below : List Level} {e : Fault}
    (h : Exec.step host p.stop m = .raise e m') : ¬Executes host (.loop p m below) c' := by
  rintro ⟨_, _, _, _, hc, -, h'⟩
  cases hc
  rw [h] at h'
  cases h'

open Instruction

section

variable {p : Purpose} {below : List Level} {f : Frame} {w w' : Word} {stop : ℕ} {m : Machine} {i l s : Int64}

variable (host p) in
theorem step_forPrep (hd : Due m f w) (hop : w.opcode? = some .forPrep)
    (hi : m.arena.get (f.base + w.a.toNat) = .int i) (hlimit : m.arena.get (f.base + w.a.toNat + 1) = .int l)
    (hs : m.arena.get (f.base + w.a.toNat + 2) = .int s) :
    Exec.step host p.stop m =
      if s = 0 then .raise .forStepZero (m.modifyFrame Frame.skip)
      else if Past l.toInt s.toInt i.toInt then
        (jump (w.sbx.toInt + 1) (m.modifyFrame Frame.skip)).bind fun _ m => .ret none m
      else (setSlot (f.base + w.a.toNat + 3) (.int i) (m.modifyFrame Frame.skip)).bind fun _ m => .ret none m := by
  rw [hd.step_eq host p.stop hop (by decide)]
  have hrun : Opcode.run host .forPrep w (m.modifyFrame Frame.skip) = forPrep w (m.modifyFrame Frame.skip) := rfl
  rw [hrun, forPrep_ints (f := f.skip) hd.frame?_skip hi hlimit hs]
  split
  · rfl
  · split <;> rfl

variable (host p below) in
/-- The opening instruction goes behind the loop, or into its body if there is room for the copy of the index. -/
theorem prep_cases (hd : Due m f w) (hl : f.LoopsTo w stop w') (hi : m.arena.get (f.base + w.a.toNat) = .int i)
    (hlimit : m.arena.get (f.base + w.a.toNat + 1) = .int l)
    (hs : m.arena.get (f.base + w.a.toNat + 2) = .int s) (hne : s ≠ 0) :
    (Past l.toInt s.toInt i.toInt ∧
      ∃ c', Executes host (.loop p m below) c' ∧ c'.machine.IsAt f (stop + 1)) ∨
    (¬Past l.toInt s.toInt i.toInt ∧ ¬m.arena.admits (f.base + w.a.toNat + 3) ∧
      Exec.step host p.stop m = .raise .stackOverflow (m.modifyFrame Frame.skip)) ∨
    (¬Past l.toInt s.toInt i.toInt ∧ m.arena.admits (f.base + w.a.toNat + 3) ∧
      ∃ c', Executes host (.loop p m below) c' ∧ c'.machine.InBody f (f.base + w.a.toNat) i l s) := by
  have hstep := step_forPrep host p hd hl.opens hi hlimit hs
  rw [if_neg hne] at hstep
  have hat : (m.modifyFrame Frame.skip).IsAt f (f.pc + 1) := ⟨f.skip, hd.frame?_skip, rfl, rfl, rfl⟩
  by_cases hpast : Past l.toInt s.toInt i.toInt
  · have htarget : (f.skip.pc : ℤ) + (w.sbx.toInt + 1) = (stop + 1 : ℕ) := by
      have h := hl.target
      simp only [Frame.skip, Nat.cast_add, Nat.cast_one]
      omega
    rw [if_pos hpast, jump_eq hd.frame?_skip htarget hl.stop_lt] at hstep
    exact .inl ⟨hpast, _, ⟨p, m, _, below, rfl, rfl, hstep⟩, hat.modifyFrame⟩
  rw [if_neg hpast] at hstep
  by_cases hroom : m.arena.admits (f.base + w.a.toNat + 3)
  · have hroom' : (m.modifyFrame Frame.skip).arena.admits (f.base + w.a.toNat + 3) := hroom
    rw [setSlot_of_admits hroom'] at hstep
    refine .inr (.inr ⟨hpast, hroom, _, ⟨p, m, _, below, rfl, rfl, hstep⟩, hat, hd.alive, ?_, ?_, ?_,
      get_put_self hroom'⟩)
    · exact (get_put_other hroom' (by omega)).trans hi
    · exact (get_put_other hroom' (by omega)).trans hlimit
    · exact (get_put_other hroom' (by omega)).trans hs
  · have hfull : setSlot (f.base + w.a.toNat + 3) (.int i) (m.modifyFrame Frame.skip) =
        .raise .stackOverflow (m.modifyFrame Frame.skip) := if_neg hroom
    rw [hfull] at hstep
    exact .inr (.inl ⟨hpast, hroom, hstep⟩)

variable (host p below) in
/-- The closing instruction goes behind the loop, or back into its body with the next index. -/
theorem loop_cases {g : Frame} (hd : Due m g w') (hl : f.LoopsTo w stop w') (hbase : g.base = f.base)
    (hclosure : g.closure = f.closure) (hpc : g.pc = stop) (hi : m.arena.get (f.base + w.a.toNat) = .int i)
    (hlimit : m.arena.get (f.base + w.a.toNat + 1) = .int l)
    (hs : m.arena.get (f.base + w.a.toNat + 2) = .int s) (hroom : m.arena.admits (f.base + w.a.toNat + 3)) :
    (Past l.toInt s.toInt (i.toInt + s.toInt) ∧
      ∃ c', Executes host (.loop p m below) c' ∧ c'.machine.IsAt f (stop + 1)) ∨
    (¬Past l.toInt s.toInt (i.toInt + s.toInt) ∧ ∃ v c', v.toInt = i.toInt + s.toInt ∧
      Executes host (.loop p m below) c' ∧ c'.machine.InBody f (f.base + w.a.toNat) v l s) := by
  have hstep := hd.step_eq host p.stop hl.closes (by decide)
  have hrun : Opcode.run host .forLoop w' (m.modifyFrame Frame.skip) = forLoop w' (m.modifyFrame Frame.skip) := rfl
  have hat : (m.modifyFrame Frame.skip).IsAt f (stop + 1) :=
    ⟨g.skip, hd.frame?_skip, hclosure, hbase, congrArg Nat.succ hpc⟩
  have hstart : g.skip.base + w'.a.toNat = f.base + w.a.toNat := by rw [hl.registers, ← hbase]; rfl
  rw [hrun] at hstep
  obtain ⟨hpast, hnext⟩ | ⟨hpast, v, hv, hnext⟩ := forLoop_ints (w := w') hd.frame?_skip (by rw [hstart]; exact hi)
    (by rw [hstart]; exact hlimit) (by rw [hstart]; exact hs) <;> rw [hnext] at hstep
  · exact .inl ⟨hpast, _, ⟨p, m, _, below, rfl, rfl, hstep⟩, hat⟩
  rw [hstart] at hstep
  generalize f.base + w.a.toNat = start at *
  have h₀ : (m.modifyFrame Frame.skip).arena.admits start := Arena.admits_of_le hroom (by omega)
  have h₃ : ((m.modifyFrame Frame.skip).modifyArena (·.put start (.int v))).arena.admits (start + 3) :=
    (admits_put h₀ _).2 hroom
  have hframe : (((m.modifyFrame Frame.skip).modifyArena (·.put start (.int v))).modifyArena
      (·.put (start + 3) (.int v))).frame? = some g.skip := hd.frame?_skip
  have htarget : (g.skip.pc : ℤ) + w'.sbx.toInt = (f.pc + 1 : ℕ) := by
    have h := hl.back
    simp only [Frame.skip, hpc, Nat.cast_add, Nat.cast_one]
    omega
  have hle : f.pc + 1 ≤ g.skip.prototype.code.size := by
    rw [show g.skip.prototype = f.prototype from congrArg Closure.prototype hclosure]
    exact hl.pc_lt
  rw [bind_eq, setSlot_of_admits h₀] at hstep
  simp only [Step.bind] at hstep
  rw [bind_eq, setSlot_of_admits h₃] at hstep
  simp only [Step.bind] at hstep
  rw [jump_eq hframe htarget hle] at hstep
  refine .inr ⟨hpast, v, _, hv, ⟨p, m, _, below, rfl, rfl, hstep⟩, hat.modifyFrame, hd.alive, ?_, ?_, ?_,
    get_put_self h₃⟩
  · exact (get_put_other h₃ (by omega)).trans (get_put_self h₀)
  · exact (get_put_other h₃ (by omega)).trans ((get_put_other h₀ (by omega)).trans hlimit)
  · exact (get_put_other h₃ (by omega)).trans ((get_put_other h₀ (by omega)).trans hs)

/-- A number of steps were made, and the body is entered. -/
structure InRound (host : Host) (c : Config) (f : Frame) (start : ℕ) (i l s : Int64) (k : ℕ) (c' : Config) :
    Prop where
  leads : LeadsTo host c c'
  room : c.machine.arena.admits (start + 3)
  lt : k < roundCount i.toInt l.toInt s.toInt
  inBody : ∃ v : Int64, v.toInt = i.toInt + k * s.toInt ∧ c'.machine.InBody f start v l s

/-- After the body, one more step is made if there is one. -/
theorem InRound.next {k : ℕ} {d : Config} (hc : Reachable host c) (hl : f.LoopsTo w stop w') (hne : s ≠ 0)
    (h : InRound host c f (f.base + w.a.toNat) i l s k c')
    (hb : Completes host f (f.base + w.a.toNat) stop c' d) :
    (k + 1 < roundCount i.toInt l.toInt s.toInt ∧
      ∃ d', Executes host d d' ∧ InRound host c f (f.base + w.a.toNat) i l s (k + 1) d') ∨
    (k + 1 = roundCount i.toInt l.toInt s.toInt ∧ ∃ d', Executes host d d' ∧ d'.machine.IsAt f (stop + 1)) := by
  have hne' : s.toInt ≠ 0 := Division.toInt_ne_zero hne
  have hcount := lt_roundCount_iff i.toInt l.toInt hne' (k + 1)
  obtain ⟨v, hv, hin⟩ := h.inBody
  obtain ⟨p, m, below, g, w'', rfl, hd, hclosure, hbase, hpc⟩ := hb.due
  have hleads := h.leads.trans hb.leads
  obtain rfl : w'' = w' := by
    have hword : f.prototype.code[stop]? = some w'' := by
      rw [← hpc, ← show g.prototype = f.prototype from congrArg Closure.prototype hclosure]
      exact hd.word
    exact Option.some.inj (hword.symm.trans hl.closing)
  have hnext : i.toInt + ((k + 1 : ℕ) : ℤ) * s.toInt = v.toInt + s.toInt := by rw [hv]; push_cast; ring
  rw [hnext] at hcount
  have hroom := (admits_of_leadsTo hc hleads _).2 h.room
  obtain ⟨hpast, d', hex, hat⟩ | ⟨hpast, v', d', hv', hex, hin'⟩ := loop_cases host p below hd hl hbase
    hclosure hpc ((hb.kept 0 (by decide)).trans hin.index) ((hb.kept 1 (by decide)).trans hin.limit)
    ((hb.kept 2 (by decide)).trans hin.step) hroom
  · exact .inr ⟨Nat.le_antisymm h.lt (Nat.le_of_not_lt fun hlt => hcount.1 hlt hpast), d', hex, hat⟩
  · refine .inl ⟨hcount.2 hpast, d', hex, hleads.trans hex.leadsTo, h.room, hcount.2 hpast, v', ?_, hin'⟩
    rw [hv', hnext]

variable {body : Config → Config → Prop} {vs : List Value}

theorem not_rounds_of_raise {start : ℕ} {e : Fault} {m' : Machine} (h : Exec.step host p.stop m = .raise e m') :
    ¬Rounds host body f start (.loop p m below) vs c' := by
  intro hrounds
  induction hrounds with
  | first hex => exact not_executes_of_raise h hex
  | next _ _ _ _ ih => exact ih

section

variable (hc : Reachable host (.loop p m below)) (hd : Due m f w) (hl : f.LoopsTo w stop w')
    (hi : m.arena.get (f.base + w.a.toNat) = .int i) (hlimit : m.arena.get (f.base + w.a.toNat + 1) = .int l)
    (hs : m.arena.get (f.base + w.a.toNat + 2) = .int s) (hne : s ≠ 0)
    (hbody : ∀ e x, body e x → Completes host f (f.base + w.a.toNat) stop e x)

include hc hd hl hi hlimit hs hne hbody

/-- Whenever the body is entered, so many steps were made as values were seen, less one, and these are the numbers
of the progression up to the last step. -/
theorem Rounds.inRound (h : Rounds host body f (f.base + w.a.toNat) (.loop p m below) vs c') :
    ∃ k, vs.length = k + 1 ∧ InRound host (.loop p m below) f (f.base + w.a.toNat) i l s k c' ∧
      vs.map Value.exact? = ((progression i.toInt l.toInt s.toInt).take (k + 1)).map some := by
  have hne' : s.toInt ≠ 0 := Division.toInt_ne_zero hne
  have hstop : stop + 1 ≠ f.pc + 1 := fun h => hl.stop_ne (Nat.succ.inj h)
  induction h with
  | @first c' hex hat =>
    obtain ⟨-, d, hex', hat'⟩ | ⟨-, -, hraise⟩ | ⟨hpast, hroom, d, hex', hin⟩ :=
      prep_cases host p below hd hl hi hlimit hs hne
    · exact absurd ((hex'.unique hex ▸ hat').unique hat) hstop
    · exact absurd hex (not_executes_of_raise hraise)
    · obtain rfl := hex'.unique hex
      have hzero : i.toInt = i.toInt + (0 : ℕ) * s.toInt := by simp
      have hlt : 0 < roundCount i.toInt l.toInt s.toInt := by
        rw [lt_roundCount_iff _ _ hne', ← hzero]
        exact hpast
      refine ⟨0, rfl, ⟨hex.leadsTo, hroom, hlt, i, hzero, hin⟩, ?_⟩
      rw [take_progression_succ hlt, hin.copy, ← hzero]
      rfl
  | @next vs e x d' _ hb hex hat ih =>
    obtain ⟨k, hlen, hround, hmap⟩ := ih
    obtain ⟨hlt, d, hex', hround'⟩ | ⟨-, d, hex', hat'⟩ := hround.next hc hl hne (hbody e x hb)
    · obtain rfl := hex'.unique hex
      obtain ⟨v, hv, hin⟩ := hround'.inBody
      refine ⟨k + 1, by rw [List.length_append, hlen]; rfl, hround', ?_⟩
      rw [take_progression_succ hlt, List.map_append, List.map_append, hmap, hin.copy, ← hv]
      rfl
    · exact absurd ((hex'.unique hex ▸ hat').unique hat) hstop

/-- After a round there is another one, or all numbers were seen and the loop is left. -/
theorem Rounds.continues (h : Rounds host body f (f.base + w.a.toNat) (.loop p m below) vs c') :
    vs.map Value.exact? <+: (progression i.toInt l.toInt s.toInt).map some ∧ ∀ x, body c' x →
      (vs.length < (progression i.toInt l.toInt s.toInt).length ∧
        ∃ v e, Executes host x e ∧ Rounds host body f (f.base + w.a.toNat) (.loop p m below) (vs ++ [v]) e) ∨
      (vs.map Value.exact? = (progression i.toInt l.toInt s.toInt).map some ∧
        ∃ e, Executes host x e ∧ e.machine.IsAt f (stop + 1)) := by
  obtain ⟨k, hlen, hin, hmap⟩ := h.inRound hc hd hl hi hlimit hs hne hbody
  refine ⟨hmap ▸ (List.take_prefix _ _).map _, fun x hx => ?_⟩
  obtain ⟨hlt, e, hex, hin'⟩ | ⟨hlast, e, hex, hat⟩ := hin.next hc hl hne (hbody c' x hx)
  · obtain ⟨v, -, hbody'⟩ := hin'.inBody
    exact .inl ⟨by rw [hlen, length_progression]; exact hlt, _, e, hex, h.next hx hex hbody'.isAt⟩
  · refine .inr ⟨?_, e, hex, hat⟩
    rw [hmap, List.take_of_length_le (by rw [length_progression, hlast])]

/-- If there is room, and every run of the body comes to the closing instruction, all steps are made. -/
theorem exists_round (hroom : m.arena.admits (f.base + w.a.toNat + 3))
    (hends : ∀ vs e, Rounds host body f (f.base + w.a.toNat) (.loop p m below) vs e → ∃ x, body e x) {k : ℕ}
    (hk : k < roundCount i.toInt l.toInt s.toInt) :
    ∃ vs e, Rounds host body f (f.base + w.a.toNat) (.loop p m below) vs e ∧ vs.length = k + 1 := by
  induction k with
  | zero =>
    rw [lt_roundCount_iff _ _ (Division.toInt_ne_zero hne), Nat.cast_zero, Int.zero_mul, Int.add_zero] at hk
    obtain ⟨hpast, -⟩ | ⟨-, hfull, -⟩ | ⟨-, -, e, hex, hin⟩ :=
      prep_cases host p below hd hl hi hlimit hs hne
    · exact absurd hpast hk
    · exact absurd hroom hfull
    · exact ⟨_, e, .first hex hin.isAt, rfl⟩
  | succ k ih =>
    obtain ⟨vs, e, hrounds, hlen⟩ := ih (Nat.lt_of_succ_lt hk)
    obtain ⟨x, hx⟩ := hends vs e hrounds
    obtain ⟨k', hlen', hround, -⟩ := hrounds.inRound hc hd hl hi hlimit hs hne hbody
    obtain rfl : k = k' := Nat.succ.inj (hlen.symm.trans hlen')
    obtain ⟨-, e', hex, hround'⟩ | ⟨hlast, -⟩ := hround.next hc hl hne (hbody e x hx)
    · obtain ⟨v, -, hin⟩ := hround'.inBody
      exact ⟨_, e', hrounds.next hx hex hin.isAt, by rw [List.length_append, hlen]; rfl⟩
    · omega

end

/-- The body of a loop over integers is entered with the progression up to the limit, in order and not reduced to 64
bits, and then the loop is left. A step of zero is a fault. -/
theorem integer_loop_rounds (hc : Reachable host (.loop p m below)) (hd : Due m f w) (hl : f.LoopsTo w stop w')
    (hi : m.arena.get (f.base + w.a.toNat) = .int i) (hlimit : m.arena.get (f.base + w.a.toNat + 1) = .int l)
    (hs : m.arena.get (f.base + w.a.toNat + 2) = .int s)
    (hbody : ∀ e x, body e x → Completes host f (f.base + w.a.toNat) stop e x) :
    let c : Config := .loop p m below
    let InRounds := Rounds host body f (f.base + w.a.toNat) c
    let Leaves := fun x : Config => ∃ c', Executes host x c' ∧ c'.machine.IsAt f (stop + 1)
    let numbers := progression i.toInt l.toInt s.toInt
    (w.a.toNat + 3 < f.prototype.window.toNat → m.arena.admits (f.base + w.a.toNat + 3)) ∧
    (s = 0 → Exec.step host p.stop m = .raise .forStepZero (m.modifyFrame Frame.skip) ∧ ∀ vs e, ¬InRounds vs e) ∧
    (s ≠ 0 →
      (numbers.length : ℤ) = max 0 (⌊((l.toInt - i.toInt : ℤ) : ℚ) / s.toInt⌋ + 1) ∧
      (∀ k : ℕ, k < numbers.length ↔ ¬Past l.toInt s.toInt (i.toInt + k * s.toInt)) ∧
      (∀ vs e, InRounds vs e → vs.map Value.exact? <+: numbers.map some ∧ ∀ x, body e x →
        (vs.length < numbers.length ∧ ∃ v e', Executes host x e' ∧ InRounds (vs ++ [v]) e') ∨
        (vs.map Value.exact? = numbers.map some ∧ Leaves x)) ∧
      (numbers = [] → Leaves c) ∧
      (numbers ≠ [] → ¬m.arena.admits (f.base + w.a.toNat + 3) →
        Exec.step host p.stop m = .raise .stackOverflow (m.modifyFrame Frame.skip)) ∧
      (numbers ≠ [] → m.arena.admits (f.base + w.a.toNat + 3) → (∀ vs e, InRounds vs e → ∃ x, body e x) →
        ∃ vs e x, InRounds vs e ∧ vs.map Value.exact? = numbers.map some ∧ body e x ∧ Leaves x)) := by
  intro c InRounds Leaves numbers
  have hlength : numbers.length = roundCount i.toInt l.toInt s.toInt := length_progression
  refine ⟨fun hwindow => hc.admits_window hd.frame ?_, fun hzero => ?_, fun hne => ?_⟩
  · rw [Frame.top]
    omega
  · have hstep := step_forPrep host p hd hl.opens hi hlimit hs
    rw [if_pos hzero] at hstep
    exact ⟨hstep, fun vs e => not_rounds_of_raise hstep⟩
  have hcount := lt_roundCount_iff i.toInt l.toInt (Division.toInt_ne_zero hne)
  have hround (vs : List Value) (e : Config) (h : InRounds vs e) :=
    Rounds.continues hc hd hl hi hlimit hs hne hbody h
  have hfirst : numbers ≠ [] ↔ ¬Past l.toInt s.toInt i.toInt := by
    rw [← List.length_pos_iff, hlength, hcount, Nat.cast_zero, Int.zero_mul, Int.add_zero]
  have hprep := prep_cases host p below hd hl hi hlimit hs hne
  refine ⟨by rw [hlength, roundCount_eq], fun k => hlength ▸ hcount k, hround, fun hnil => ?_, fun hcons hfull => ?_,
    fun hcons hroom hends => ?_⟩
  · obtain ⟨-, hleaves⟩ | ⟨hpast, -⟩ | ⟨hpast, -⟩ := hprep
    · exact hleaves
    all_goals exact absurd hnil (hfirst.2 hpast)
  · obtain ⟨hpast, -⟩ | ⟨-, -, hraise⟩ | ⟨-, hroom, -⟩ := hprep
    · exact absurd hpast (hfirst.1 hcons)
    · exact hraise
    · exact absurd hroom hfull
  · have hpos : 0 < numbers.length := List.length_pos_iff.2 hcons
    obtain ⟨vs, e, hrounds, hlen⟩ := exists_round (k := numbers.length - 1) hc hd hl hi hlimit hs hne
      hbody hroom hends (by omega)
    obtain ⟨x, hx⟩ := hends vs e hrounds
    obtain ⟨hlt, -⟩ | ⟨hall, hleaves⟩ := (hround vs e hrounds).2 x hx
    · have hlt : vs.length < numbers.length := hlt
      omega
    · exact ⟨vs, e, x, hrounds, hall, hx, hleaves⟩

end

theorem move_eq {m : Machine} {f : Frame} {w : Word} (hf : m.frame? = some f) :
    Instruction.move w m = setSlot (f.base + w.a.toNat) (m.arena.get (f.base + w.b.toNat)) m := by
  unfold Instruction.move
  simp only [bind_eq, register, setRegister, Exec.base, Exec.read, Step.bind, base_eq hf]

/-- A body of one instruction that copies the index, to a register behind those of the loop. -/
theorem completes_move (host : Host) (p : Purpose) (below : List Level) {f : Frame} {w u w' : Word} {stop : ℕ}
    {v l s : Int64} {m : Machine} (hin : m.InBody f (f.base + w.a.toNat) v l s) (hl : f.LoopsTo w stop w')
    (hstop : stop = f.pc + 2) (hword : f.prototype.code[f.pc + 1]? = some u) (hop : u.opcode? = some .move)
    (hfar : w.a.toNat + 3 < u.a.toNat) (hroom : m.arena.admits (f.base + u.a.toNat)) :
    ∃ x, Executes host (.loop p m below) x ∧
      Completes host f (f.base + w.a.toNat) stop (.loop p m below) x := by
  obtain ⟨g, hg, hclosure, hbase, hpc⟩ := hin.isAt
  have hcode : g.prototype.code = f.prototype.code := congrArg (·.prototype.code) hclosure
  have hd : Due m g u := ⟨hg, by rw [Frame.word?, hcode, hpc, hword], hin.alive⟩
  have hroom' : (m.modifyFrame Frame.skip).arena.admits (g.skip.base + u.a.toNat) := hbase ▸ hroom
  have hstep := hd.step_eq host p.stop hop (by decide)
  have hrun : Opcode.run host .move u (m.modifyFrame Frame.skip) = Instruction.move u (m.modifyFrame Frame.skip) := rfl
  rw [hrun, move_eq hd.frame?_skip, setSlot_of_admits hroom'] at hstep
  refine ⟨_, ⟨p, m, _, below, rfl, rfl, hstep⟩, leadsTo_loop hstep,
    ⟨p, _, below, g.skip, w', rfl, ⟨hd.frame?_skip, ?_, hin.alive⟩, hclosure, hbase, ?_⟩,
    fun j hj => get_put_other hroom' ?_⟩
  · rw [Frame.word?, show g.skip.prototype.code = f.prototype.code from hcode, Frame.skip, hpc]
    exact hstop ▸ hl.closing
  · rw [hstop, Frame.skip, hpc]
  · rw [show g.skip.base = f.base from hbase]
    omega

/-- Counts up to the greatest integer, and copies the index in each round. -/
def countUp : Prototype where
  name := "main"
  source := "main"
  window := 5
  code := #[.abx .loadK 0 0, .abx .loadK 1 1, .asbx .loadI 2 1, .asbx .forPrep 0 1,
    .abc .move 4 (.register 3) (.register 0), .asbx .forLoop 0 (-2), .abc .ret 0 (.register 1) (.register 0)]
  constants := #[.int 9223372036854775806, .int 9223372036854775807]

/-- Where its loop begins. -/
def countingUp : Config :=
  steps (fun _ _ => .done []) 8
    (ask (fun _ _ => .done []) (.call (.closure ⟨0⟩) []) ((bare ⟨4, 64, 4, 4⟩).load countUp).2 [])

/-- The next instruction is due. -/
def isLoop : Config → Bool
  | .loop _ _ _ => true
  | _ => false

theorem eq_loop_of_isLoop {c : Config} (h : c.isLoop) : ∃ p below, c = .loop p c.machine below := by
  cases c with
  | loop p m below => exact ⟨p, below, rfl⟩
  | _ => cases h

/-- The last two integers, and nothing behind them. -/
theorem integer_loop_rounds_greatest :
    let host : Host := fun _ _ => .done []
    ∃ f, countingUp.machine.frame? = some f ∧
      let body := fun e x => Executes host e x ∧ Completes host f 1 5 e x
      ∃ vs e x c', Rounds host body f 1 countingUp vs e ∧
        vs.map Value.exact? = [some (2 ^ 63 - 2), some (2 ^ 63 - 1)] ∧ body e x ∧ Executes host x c' ∧
        c'.machine.IsAt f 6 := by
  intro host
  have hc : Reachable host countingUp := reachable_asked host _ [.load countUp] _ 8
  obtain ⟨p, below, hloop⟩ := eq_loop_of_isLoop (c := countingUp) (by decide +kernel)
  let prep : Word := .asbx .forPrep 0 1
  let copy : Word := .abc .move 4 (.register 3) (.register 0)
  let loop : Word := .asbx .forLoop 0 (-2)
  have hfacts : countingUp.machine.frame?.any (fun f => f.word? = some prep && f.base = 1 && f.pc = 3 &&
      f.prototype.code[4]? = some copy && f.prototype.code[5]? = some loop) = true := by decide +kernel
  simp only [Option.any_eq_true, Bool.and_eq_true, decide_eq_true_eq] at hfacts
  obtain ⟨f, hf, ⟨⟨⟨hword, hbase⟩, hpc⟩, hcopy⟩, hclosing⟩ := hfacts
  have hstart : f.base + prep.a.toNat = 1 := by
    rw [hbase]
    decide
  have hd : Due countingUp.machine f prep := ⟨hf, hword, by decide +kernel⟩
  have hl : f.LoopsTo prep 5 loop :=
    ⟨hword, by decide, by rw [hpc]; decide, hclosing, by decide, by rw [hpc]; decide, by decide⟩
  have hget (j : ℕ) (v : Value) (h : countingUp.machine.arena.get (1 + j) = v) :
      countingUp.machine.arena.get (f.base + prep.a.toNat + j) = v := hstart.symm ▸ h
  have hi := hget 0 (.int 9223372036854775806) (by decide +kernel)
  have hlimit := hget 1 (.int 9223372036854775807) (by decide +kernel)
  have hs := hget 2 (.int 1) (by decide +kernel)
  have hroom (j : ℕ) (hj : j ≤ 5) : countingUp.machine.arena.admits j :=
    Arena.admits_of_le (j := 5) (by decide +kernel) hj
  refine ⟨f, hf, ?_⟩
  intro body
  rw [hloop] at hc ⊢
  have hbody : ∀ e x, body e x → Completes host f (f.base + prep.a.toNat) 5 e x := fun e x h => hstart.symm ▸ h.2
  obtain ⟨-, -, hrounds⟩ := integer_loop_rounds hc hd hl hi hlimit hs hbody
  obtain ⟨-, -, -, -, -, hall⟩ := hrounds (by decide)
  obtain ⟨vs, e, x, hvs, hmap, hx, c', hex, hat⟩ := hall (by decide) (hroom _ (by rw [hstart]; decide)) fun vs e h => by
    obtain ⟨k, -, hround, -⟩ := Rounds.inRound hc hd hl hi hlimit hs (by decide) hbody h
    obtain ⟨v, -, hin⟩ := hround.inBody
    obtain ⟨q, low, he⟩ := h.eq_loop
    rw [he]
    obtain ⟨x, hex, hx⟩ := completes_move host q low hin hl
      (by rw [hpc]) (by rw [hpc]; exact hcopy) (by decide) (by decide)
      ((admits_of_leadsTo hc hround.leads _).2 (hroom _ (by rw [hbase]; decide)))
    exact ⟨x, hex, hstart ▸ hx⟩
  exact ⟨vs, e, x, c', hstart ▸ hvs, hmap.trans (by decide), hx, hex, hat⟩

end Config
end RegisterMachine
