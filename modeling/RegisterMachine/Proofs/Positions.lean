import RegisterMachine.Proofs.Placements
import RegisterMachine.Prototype.Listing

/-! Where frames stand. When an instruction is over, its frame stands behind it and the raw word that belongs to it,
whatever else the instruction did, which calls it made and whether it failed. Only tests and jumps move the frame on from
there, and only a return and a call in tail position take it off. -/
namespace RegisterMachine

open Machine

namespace Word

def behind (w : Word) (index size : Nat) : Nat := if w.hasExtraWord then min (index + 2) size else index + 1

/-- Where a frame may go on after an instruction: at the next one, past a word behind a test, or where a jump leads. -/
inductive GoesTo (w : Word) (index next : Nat) : Nat → Prop
  | next : GoesTo w index next next
  | past {op : Opcode} (is : w.opcode? = some op) (skips : op.skips) : GoesTo w index next (next + 1)
  | target {op : Opcode} {k : Nat} (is : w.opcode? = some op) (jumps : op.jumps) (other : op ≠ .forPrep)
    (eq : (k : Int) = Prototype.jumpTarget index w - 1) : GoesTo w index next k
  /-- A loop without rounds goes on behind the instruction that its jump leads to. -/
  | behindLoop {k : Nat} (is : w.opcode? = some .forPrep) (eq : (k : Int) = Prototype.jumpTarget index w) :
    GoesTo w index next k

theorem GoesTo.eq_next {w : Word} {index next k : Nat} {op : Opcode} (h : w.GoesTo index next k)
    (hop : w.opcode? = some op) (hs : op.skips = false) (hj : op.jumps = false) : k = next := by
  have no {op' : Opcode} (is : w.opcode? = some op') (hmoves : op'.skips ∨ op'.jumps) : False := by
    obtain rfl : op' = op := Option.some.inj (is.symm.trans hop)
    simp [hs, hj] at hmoves
  cases h with
  | next => rfl
  | past is skips => exact (no is (.inl skips)).elim
  | target is jumps => exact (no is (.inr jumps)).elim
  | behindLoop is => exact (no is (.inr rfl)).elim

theorem behind_of_opcode {w : Word} {op : Opcode} (h : w.opcode? = some op) (ht : op.takesExtraWord = false)
    (index size : Nat) : w.behind index size = index + 1 := by
  have hextra : w.hasExtraWord = false := by
    rw [hasExtraWord, h]
    cases op <;> first | rfl | cases ht
  rw [behind, hextra]
  rfl

theorem behind_of_loadKX {w : Word} (h : w.opcode? = some .loadKX) (index size : Nat) :
    w.behind index size = min (index + 2) size := by
  rw [behind, hasExtraWord, h]
  rfl

theorem behind_of_setList {w : Word} (h : w.opcode? = some .setList) (index size : Nat) :
    w.behind index size = if w.c = 0 then min (index + 2) size else index + 1 := by
  rw [behind, hasExtraWord, h]
  simp

end Word

namespace Machine

variable {c : Closure} {fs : List Frame} {n n' : Nat} {S : Nat → Prop} {m m' : Machine}

def StandsAt (c : Closure) (fs : List Frame) (n : Nat) (m : Machine) : Prop :=
  ∃ g, m.fiber.calls.frames = g :: fs ∧ g.closure = c ∧ g.pc = n

/-- A frame runs a closure, on top of other frames and below those that it called, and stands at one of some indexes. -/
def RestsAt (c : Closure) (fs : List Frame) (S : Nat → Prop) (m : Machine) : Prop :=
  ∃ g, g :: fs <:+ m.fiber.calls.frames ∧ g.closure = c ∧ S g.pc

theorem stable_standsAt (c : Closure) (fs : List Frame) (n : Nat) : Stable (StandsAt c fs n) :=
  stable_calls fun calls => ∃ g, calls.frames = g :: fs ∧ g.closure = c ∧ g.pc = n

theorem StandsAt.rests (h : m.StandsAt c fs n) (hn : S n) : m.RestsAt c fs S := by
  obtain ⟨g, hm, hc, rfl⟩ := h
  exact ⟨g, hm ▸ List.suffix_refl _, hc, hn⟩

theorem StandsAt.frame? (h : m.StandsAt c fs n) : ∃ g, m.frame? = some g ∧ g.closure = c ∧ g.pc = n := by
  obtain ⟨g, hm, hg⟩ := h
  exact ⟨g, frame?_of_frames hm, hg⟩

theorem StandsAt.modifyFrame {g : Frame → Frame} (h : m.StandsAt c fs n)
    (hg : ∀ f, f.closure = c → f.pc = n → (g f).closure = c ∧ (g f).pc = n') :
    (m.modifyFrame g).StandsAt c fs n' := by
  obtain ⟨f, hm, hc, hn⟩ := h
  exact ⟨g f, frames_modifyTop g hm, hg f hc hn⟩

end Machine

namespace Exec

variable {host : Host} {c : Closure} {fs : List Frame} {n : Nat} {m : Machine}

theorem holds_mark (slot : Nat) : Holds (StandsAt c fs n) Unit (modifyFrame (·.mark slot)) := by
  intro m hm
  obtain ⟨g, hg, -⟩ := hm.frame?
  rw [modifyFrame, hg]
  exact ⟨.single (.touch (.mark slot)), hm.modifyFrame fun _ hc hn => ⟨hc, hn⟩, noYield_ok _⟩

theorem holds_capture (slot : Nat) : Holds (StandsAt c fs n) (Ref .broker) (capture slot) := by
  intro m hm
  obtain ⟨g, hg, -⟩ := hm.frame?
  rw [capture_eq, hg]
  dsimp only
  split
  · exact ⟨.refl, hm, noYield_ok _⟩
  · rename_i hb
    refine ⟨.single (.touch (.capture hg hb)), ?_, noYield_ok _⟩
    exact StandsAt.modifyFrame (m := { m with heap := _ }) hm fun _ hc hn => ⟨hc, hn⟩

theorem holds_closeFrom (start : Nat) : Holds (StandsAt c fs n) Unit (closeFrom start) := by
  intro m hm
  obtain ⟨g, hg, hc, hn⟩ := hm.frame?
  rw [closeFrom_eq, hg]
  have hpart : (m.part g start).StandsAt c fs n := hm.modifyFrame fun _ _ _ => ⟨hc, hn⟩
  exact (holds_closeSlots (stable_standsAt c fs n) _ _ _ hpart).mono (.single (.touch (.part start hg)))

theorem closedInWindow_standsAt (c : Closure) (fs : List Frame) (n : Nat) : ClosedInWindow 0 (Holds (StandsAt c fs n)) where
  toClosedAbove := (Holds.closed (stable_standsAt c fs n)).above 0
  base hk := Holds.bind ((Holds.closed (stable_standsAt c fs n)).read _) fun i => hk i (Nat.zero_le _)
  frame hk := Holds.bind (Holds.closed (stable_standsAt c fs n)).frame fun f => hk f (Nat.zero_le _)
  closeList _ := (Holds.closed (stable_standsAt c fs n)).modifyTop _
  capture _ := holds_capture _

theorem holds_run_straight {op : Opcode} (hc : op.calls = false) (hm : op.moves = false) (w : Word) :
    Holds (StandsAt c fs n) Unit (op.run host w) := by
  have h := closedInWindow_standsAt c fs n
  cases hop : op.handlesMarks with
  | false => exact Opcode.closed_run_straight h hop hc hm (fun _ => Holds.setBroker (stable_standsAt c fs n)) w
  | true =>
    obtain rfl | rfl | rfl | rfl := Opcode.cases_of_handlesMarks hop
    · cases hm
    · exact h.base fun _ _ => holds_closeFrom _
    · exact h.base fun _ _ => holds_mark _
    · cases hc

/-- A computation in a frame that stands at an index, after which it stands at one of some indexes. -/
def Reaches (c : Closure) (fs : List Frame) (n : Nat) (S : Nat → Prop) {α : Type} (x : Exec α) : Prop :=
  ∀ m, m.StandsAt c fs n → (x m).Follows (floor fun _ => True) (fun _ m' => m'.RestsAt c fs S) m

namespace Reaches

variable {S : Nat → Prop} {α β : Type} (hn : S n)

include hn

theorem of_holds {x : Exec α} (hx : Holds (StandsAt c fs n) α x) : Reaches c fs n S x :=
  fun m hm => (hx m hm).imp _ (fun _ _ => trivial) fun _ _ h => h.1.rests hn

theorem bind {x : Exec α} {k : α → Exec β} (hx : Holds (StandsAt c fs n) α x) (hk : ∀ a, Reaches c fs n S (k a)) :
    Reaches c fs n S (x >>= k) := by
  intro m hm
  rw [bind_eq]
  exact ((hx m hm).imp _ (fun _ _ => trivial) fun _ _ h => h.1).bind (fun a m' h => hk a m' h) fun _ _ h => h.rests hn

theorem skipIf (hn' : S (n + 1)) (b : Bool) : Reaches c fs n S (skipIf b) := by
  intro m hm
  cases b with
  | false => exact ⟨.refl, hm.rests hn⟩
  | true =>
    obtain ⟨g, hg, -⟩ := hm.frame?
    have hskip : (m.modifyFrame Frame.skip).StandsAt c fs (n + 1) :=
      hm.modifyFrame fun _ hc hpc => ⟨hc, congrArg (· + 1) hpc⟩
    show (modifyFrame Frame.skip m).Follows _ _ _
    rw [modifyFrame, hg]
    exact ⟨.single (.touch (.goto fun f => f.pc + 1)), hskip.rests hn'⟩

theorem jump {offset : Int} (hk : ∀ k : Nat, (k : Int) = n + offset → S k) : Reaches c fs n S (jump offset) := by
  intro m hm
  obtain ⟨g, hg, -, hpc⟩ := hm.frame?
  rw [Exec.jump, hg]
  dsimp only
  split
  · rename_i f hf
    have htarget : (f.pc : Int) = n + offset := by
      rw [Frame.jump?] at hf
      split at hf
      · rename_i hin
        cases hf
        rw [Bool.and_eq_true, decide_eq_true_eq] at hin
        rw [Int.toNat_of_nonneg hin.1, hpc]
      · cases hf
    refine ⟨.single (.touch (.goto fun _ => f.pc)), ?_⟩
    exact StandsAt.rests (n := f.pc) (hm.modifyFrame fun _ hc _ => ⟨hc, rfl⟩) (hk _ htarget)
  · exact ⟨.refl, hm.rests hn⟩

theorem callFault {start : Nat} {wanted : Option Nat} (f : Fault) (hm : m.StandsAt c fs n) :
    (callFault start wanted f m).Follows (floor fun _ => True) (fun _ m' => m'.RestsAt c fs S) m := by
  unfold Exec.callFault
  split
  · rw [bind_eq]
    show (Step.Follows _ _ _ ((if _ then _ else _ : Exec Unit) m))
    split
    · exact ⟨.refl, hm.rests hn⟩
    · split
      · exact ⟨.refl, hm.rests hn⟩
      · rename_i hy
        have hy : m.fiber.isYieldable = true := by simpa using hy
        exact ⟨.single (.await _ hy), StandsAt.rests (m := m.await _) hm hn⟩
  · exact ⟨.refl, hm.rests hn⟩

theorem callAt (start count : Nat) (wanted : Option Nat) : Reaches c fs n S (callAt host start count wanted) := by
  intro m hm
  have hJ := stable_standsAt c fs n
  -- a fault leaves no frame of the callee on top, and can be handled where the caller stands
  have houtcome : (callOutcome host start count wanted m).Follows (floor fun _ => True)
      (fun r m' => m'.RestsAt c fs S ∧ ∀ f, r = .error f → m'.StandsAt c fs n) m := by
    unfold callOutcome
    rw [bind_eq]
    refine (begin_from hJ start count wanted hm).bind (fun results m₁ h₁ => ?_) fun f m₁ h₁ =>
      ⟨StandsAt.rests h₁ hn, fun _ _ => h₁⟩
    cases results with
    | none =>
      obtain ⟨m₂, g', ⟨g, hg, hc, hpc⟩, rfl, -⟩ := h₁
      refine ⟨.refl, ⟨g, ?_, hc, hpc ▸ hn⟩, fun _ h => by cases h⟩
      show g :: fs <:+ g' :: m₂.fiber.calls.frames
      rw [hg]
      exact List.suffix_cons _ _
    | some vs =>
      exact ((Holds.closed hJ).placeResults start wanted vs m₁ h₁).imp (fun _ => True)
        (fun _ _ => trivial) fun r m₂ h₂ => ⟨h₂.1.rests hn, fun _ _ => h₂.1⟩
  rw [callAt_eq]
  refine houtcome.handle fun result m₁ h₁ => ?_
  cases result with
  | ok _ => exact ⟨.refl, h₁.1⟩
  | error f => exact callFault hn f (h₁.2 f rfl)

section

variable (hn' : S (n + 1)) (w : Word)

include hn'

theorem loadBool : Reaches c fs n S (Instruction.loadBool w) := by
  have h := closedInWindow_standsAt c fs n
  exact bind hn (h.setRegister _ _) fun _ => skipIf hn hn' _

theorem compare {f : Value → Value → Script Bool} (hf : ∀ left right, (f left right).Plain) :
    Reaches c fs n S (Instruction.compare f w) := by
  have h := closedInWindow_standsAt c fs n
  refine bind hn (h.operand _) fun left => bind hn (h.operand _) fun right => ?_
  exact bind hn (h.script (hf left right)) fun _ => skipIf hn hn' _

theorem test : Reaches c fs n S (Instruction.test w) := by
  have h := closedInWindow_standsAt c fs n
  exact bind hn (h.read _) fun _ => skipIf hn hn' _

theorem testSet : Reaches c fs n S (Instruction.testSet w) := by
  have h := closedInWindow_standsAt c fs n
  refine bind hn (h.read _) fun v => ?_
  split
  · exact of_holds hn (h.setRegister _ _)
  · exact skipIf hn hn' _

end

section

variable (w : Word) (hk : ∀ k : Nat, (k : Int) = n + w.sbx.toInt → S k)

theorem forPrep (hk : ∀ k : Nat, (k : Int) = n + (w.sbx.toInt + 1) → S k) : Reaches c fs n S (Instruction.forPrep w) := by
  have h := closedInWindow_standsAt c fs n
  have number := Instruction.closed_loopNumber h.toClosedAbove
  refine bind hn (h.read _) fun base => bind hn (h.read _) fun _ => bind hn (number _ _) fun i => ?_
  refine bind hn (h.read _) fun _ => bind hn (number _ _) fun l => ?_
  refine bind hn (h.read _) fun _ => bind hn (number _ _) fun s => ?_
  have start (counter : Instruction.Counter) (start : Nat) : Reaches c fs n S (do
      if counter.goesOn then setSlot (start + 3) (← slot start) else Exec.jump (w.sbx.toInt + 1)) := by
    split
    · exact bind hn (h.read _) fun _ => of_holds hn (h.setSlot _ (Nat.zero_le _))
    · exact jump hn hk
  dsimp only
  split
  · refine bind hn (h.fail rfl) fun _ => ?_
    split
    · exact bind hn (h.writeRange _ (Nat.zero_le _)) fun _ => start _ _
    · exact start _ _
  · split
    · exact bind hn (h.writeRange _ (Nat.zero_le _)) fun _ => start _ _
    · exact start _ _

include hk

theorem jumpTo : Reaches c fs n S (Instruction.jumpTo w) := by
  have h := closedInWindow_standsAt c fs n
  unfold Instruction.jumpTo
  dsimp only
  split
  · exact bind hn (h.read _) fun _ => bind hn (holds_closeFrom _) fun _ => jump hn hk
  · exact jump hn hk

theorem forLoop : Reaches c fs n S (Instruction.forLoop w) := by
  have h := closedInWindow_standsAt c fs n
  refine bind hn (h.read _) fun base => bind hn (h.read _) fun _ => ?_
  refine bind hn (h.read _) fun _ => bind hn (h.read _) fun _ => ?_
  dsimp only
  split
  · refine bind hn (h.setSlot _ (Nat.zero_le _)) fun _ => ?_
    exact bind hn (h.setSlot _ (Nat.zero_le _)) fun _ => jump hn hk
  · exact of_holds hn (h.pure _)

theorem genericLoop : Reaches c fs n S (Instruction.genericLoop w) := by
  have h := closedInWindow_standsAt c fs n
  refine bind hn (h.read _) fun _ => bind hn (h.read _) fun v => ?_
  split
  · exact of_holds hn (h.pure _)
  · exact bind hn (h.setSlot _ (Nat.zero_le _)) fun _ => jump hn hk

end

theorem call (w : Word) : Reaches c fs n S (Instruction.call host w) := by
  have h := closedInWindow_standsAt c fs n
  refine bind hn (h.read _) fun _ => ?_
  exact bind hn (Instruction.closed_listLength h.toClosedAbove _ _) fun _ => callAt hn _ _ _

theorem genericCall (w : Word) : Reaches c fs n S (Instruction.genericCall host w) := by
  have h := closedInWindow_standsAt c fs n
  refine bind hn (h.read _) fun _ => bind hn (h.read _) fun _ => ?_
  exact bind hn (h.writeRange _ (Nat.zero_le _)) fun _ => callAt hn _ _ _

omit hn in
/-- The raw word is fetched, and the frame stands behind it then; at the end of the code there is none. -/
theorem extraWord {n' : Nat} (hle : n ≤ c.prototype.code.size) (heq : n' = min (n + 1) c.prototype.code.size)
    (hn' : S n') {k : Word → Exec α} (hk : ∀ x, Holds (StandsAt c fs n') α (k x)) :
    Reaches c fs n S (extraWord >>= k) := by
  have hextra (m : Machine) (hm : m.StandsAt c fs n) :
      (Exec.extraWord m).Follows (floor fun _ => True) (fun _ m' => m'.StandsAt c fs n') m := by
    obtain ⟨g, hg, hc, hpc⟩ := hm.frame?
    have hword : g.word? = c.prototype.code[n]? := by
      rw [Frame.word?, Frame.prototype, hc, hpc]
    unfold Exec.extraWord
    rw [bind_eq, fetch, hg]
    dsimp only
    cases hx : g.word? with
    | none =>
      rw [hword, Array.getElem?_eq_none_iff] at hx
      rw [show n' = n by omega]
      exact ⟨.refl, hm⟩
    | some x =>
      rw [hword] at hx
      have hlt : n < c.prototype.code.size := (Array.getElem?_eq_some_iff.1 hx).1
      rw [show n' = n + 1 by omega]
      exact ⟨.single (.touch (.goto fun f => f.pc + 1)), hm.modifyFrame fun _ hc hpc => ⟨hc, congrArg (· + 1) hpc⟩⟩
  intro m hm
  rw [bind_eq]
  exact (hextra m hm).bind (fun x m' h => of_holds hn' (hk x) m' h) fun _ _ h => h.rests hn'

omit hn in
theorem loadFarConstant {n' : Nat} (hle : n ≤ c.prototype.code.size) (heq : n' = min (n + 1) c.prototype.code.size)
    (hn' : S n') (w : Word) : Reaches c fs n S (Instruction.loadFarConstant w) := by
  have h := closedInWindow_standsAt c fs n'
  exact extraWord hle heq hn' fun x => h.bind (h.constant _) fun _ => h.setRegister _ _

omit hn in
/-- A table constructor looks for its batch before anything can go wrong. -/
theorem setList {n' : Nat} (hle : n ≤ c.prototype.code.size) (w : Word)
    (heq : n' = if w.c = 0 then min (n + 1) c.prototype.code.size else n) (hn' : S n') :
    Reaches c fs n S (Instruction.setList w) := by
  have h := closedInWindow_standsAt c fs n'
  intro m hm
  unfold Instruction.setList
  simp only [bind_eq, base, read, Step.bind]
  split
  · rename_i hc
    rw [if_pos hc] at heq
    exact extraWord hle heq hn' (fun x => h.bind (h.pure _) fun i => Instruction.closed_setBatch h w _ _ i) m hm
  · rename_i hc
    rw [if_neg hc] at heq
    subst heq
    exact of_holds hn' (Instruction.closed_setBatch h w _ _ _) m hm

section

variable {index : Nat} {w : Word} {op : Opcode}

omit hn in
theorem run (hop : w.opcode? = some op) (htail : op ≠ .tailCall) (hi : index < c.prototype.code.size) :
    Reaches c fs (index + 1) (w.GoesTo index (w.behind index c.prototype.code.size)) (op.run host w) := by
  cases hextra : op.takesExtraWord with
  | true =>
    obtain rfl | rfl : op = .loadKX ∨ op = .setList := by
      cases op <;> first | exact .inl rfl | exact .inr rfl | cases hextra
    · exact loadFarConstant hi (Word.behind_of_loadKX hop ..) .next w
    · exact setList hi w (Word.behind_of_setList hop ..) .next
  | false =>
    rw [Word.behind_of_opcode hop hextra]
    have hn : w.GoesTo index (index + 1) (index + 1) := .next
    have past (hs : op.skips) : w.GoesTo index (index + 1) (index + 1 + 1) := .past hop hs
    have target (hj : op.jumps) (hne : op ≠ .forPrep) (k : Nat) (h : (k : Int) = (index + 1 : Nat) + w.sbx.toInt) :
        w.GoesTo index (index + 1) k := .target hop hj hne (by rw [h, Prototype.jumpTarget]; omega)
    cases op
    case loadBool => exact loadBool hn (past rfl) w
    case eq => exact compare hn (past rfl) w Script.plain_equals
    case lt => exact compare hn (past rfl) w Script.plain_lessThan
    case le => exact compare hn (past rfl) w Script.plain_lessEqual
    case test => exact test hn (past rfl) w
    case testSet => exact testSet hn (past rfl) w
    case jmp => exact jumpTo hn w (target rfl (by decide))
    case forLoop => exact forLoop hn w (target rfl (by decide))
    case tforLoop => exact genericLoop hn w (target rfl (by decide))
    case forPrep =>
      exact forPrep hn w fun k h => .behindLoop hop (by rw [h, Prototype.jumpTarget]; omega)
    case call => exact call hn w
    case tforCall => exact genericCall hn w
    case tailCall => exact absurd rfl htail
    case loadKX => cases hextra
    case setList => cases hextra
    all_goals exact of_holds hn (holds_run_straight rfl rfl w)

end

omit hn in
/-- A function that is no closure is called in tail position as anywhere else. -/
theorem tailCall {w : Word} (hn : S n) (hm : m.StandsAt c fs n)
    (hne : ∀ r, m.arena.get (m.base + w.a.toNat) ≠ .closure r) :
    (Instruction.tailCall host w m).Follows (floor fun _ => True) (fun _ m' => m'.RestsAt c fs S) m := by
  obtain ⟨g, hg, -⟩ := hm.frame?
  rw [base_eq hg] at hne
  rw [tailCall_of_ne host w hg hne]
  exact callAt hn _ _ _ m hm

end Reaches

/-- After a step, however it ends, the frame that made it stands where the word that was due says; unless it has
returned, or a closure that was called in tail position has taken its place. -/
theorem rests_of_step {l : List (Ref .coroutine)} {m' : Machine} {f : Frame} {w : Word} {stop time : Nat}
    {out : Except Fault (Option (List Value))} (hs : Scheduled l m) (hframes : m.fiber.calls.frames = f :: fs)
    (hd : Due m f w) (hret : w.opcode? ≠ some .ret)
    (hcallee : w.opcode? = some .tailCall → ∀ r, m.arena.get (f.base + w.a.toNat) ≠ .closure r)
    (h : (step host stop m).run (serve host time) = some (out, m')) :
    m'.RestsAt f.closure fs (w.GoesTo f.pc (w.behind f.pc f.prototype.code.size)) := by
  have hat : (m.modifyFrame Frame.skip).StandsAt f.closure fs (f.pc + 1) :=
    ⟨f.skip, frames_modifyTop Frame.skip hframes, rfl, rfl⟩
  cases hop : w.opcode? with
  | none =>
    have hfail : execute host w (m.modifyFrame Frame.skip) = .raise (.badOpcode w.code) (m.modifyFrame Frame.skip) := by
      unfold execute
      rw [hop]
      rfl
    rw [step_eq, bind_eq, hd.advance_eq, hfail] at h
    cases h
    have hbehind : w.behind f.pc f.prototype.code.size = f.pc + 1 := by
      rw [Word.behind, Word.hasExtraWord, hop]
      rfl
    exact hat.rests (hbehind ▸ .next)
  | some op =>
    have hi : f.pc < f.closure.prototype.code.size := (Array.getElem?_eq_some_iff.1 hd.word).1
    have hrun : (op.run host w (m.modifyFrame Frame.skip)).Follows (floor fun _ => True)
        (fun _ m' => m'.RestsAt f.closure fs (w.GoesTo f.pc (w.behind f.pc f.prototype.code.size)))
        (m.modifyFrame Frame.skip) := by
      by_cases htail : op = .tailCall
      · subst htail
        have hbehind := Word.behind_of_opcode hop rfl f.pc f.prototype.code.size
        refine Reaches.tailCall (hbehind ▸ .next) hat ?_
        rw [base_eq hd.frame?_skip]
        exact hcallee hop
      · exact Reaches.run hop htail hi _ hat
    have hmove : Config.Move (l, m) (l, m.modifyFrame Frame.skip) := .change (.touch (.goto fun f => f.pc + 1))
    rw [hd.step_eq host stop hop fun heq => hret (heq ▸ hop)] at h
    have hstep : ((op.run host w (m.modifyFrame Frame.skip)).bind fun _ m => .ret none m).Follows (floor fun _ => True)
        (fun (_ : Except Fault (Option (List Value))) m' => m'.RestsAt f.closure fs _) (m.modifyFrame Frame.skip) :=
      hrun.bind (fun _ _ h => ⟨.refl, h⟩) fun _ _ h => h
    exact (Config.moves_of_follows hstep (Config.scheduled_move hs hmove) h).1

end Exec
end RegisterMachine
