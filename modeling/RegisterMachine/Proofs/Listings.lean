import RegisterMachine.Proofs.Positions

/-! Listings of prototypes against what runs them. A listing goes through the code on its own, and so does a frame; they
agree on which words are instructions and where jumps lead, for whatever words there are. -/
namespace RegisterMachine

open Machine Exec

namespace Frame

/-- The raw word that an instruction fetches for itself, if it does and there is one, and the frame behind both. -/
def pass (f : Frame) (w : Word) : Option Word × Frame :=
  if w.opcode? = some .loadKX ∨ w.opcode? = some .setList ∧ w.c = 0 then f.skip.fetch else (none, f.skip)

variable {f : Frame} {w : Word}

theorem pass_eq (f : Frame) (w : Word) : f.pass w = if w.hasExtraWord then f.skip.fetch else (none, f.skip) := by
  unfold pass Word.hasExtraWord
  split
  · rename_i h
    obtain h | ⟨h, hc⟩ := h
    · simp [h]
    · simp [h, hc]
  · rename_i h
    rw [not_or, not_and] at h
    split
    · rename_i hop
      exact absurd hop h.1
    · rename_i hop
      simp [h.2 hop]
    · rfl

theorem fetch_word (f : Frame) : f.fetch.1 = f.word? := by
  unfold fetch
  split <;> simp_all

theorem fetch_pc (f : Frame) (h : f.pc ≤ f.prototype.code.size) :
    f.fetch.2.pc = min (f.pc + 1) f.prototype.code.size := by
  unfold fetch
  cases hw : f.word? with
  | none =>
    have hend : f.prototype.code.size ≤ f.pc := Array.getElem?_eq_none_iff.1 hw
    show f.pc = _
    omega
  | some w =>
    have hlt : f.pc < f.prototype.code.size := (Array.getElem?_eq_some_iff.1 hw).1
    show f.pc + 1 = _
    omega

theorem pass_pc (hw : f.word? = some w) : (f.pass w).2.pc = w.behind f.pc f.prototype.code.size := by
  rw [pass_eq, Word.behind]
  split
  · exact f.skip.fetch_pc (Array.getElem?_eq_some_iff.1 hw).1
  · rfl

/-- A jump counts from the index behind it, and its line in the listing from one. -/
theorem jump?_target (f : Frame) (w : Word) :
    f.skip.jump? w.sbx.toInt =
      if 0 ≤ Prototype.jumpTarget f.pc w - 1 ∧ Prototype.jumpTarget f.pc w - 1 ≤ f.prototype.code.size then
        some { f with pc := (Prototype.jumpTarget f.pc w - 1).toNat }
      else none := by
  have htarget : (f.skip.pc : Int) + w.sbx.toInt = Prototype.jumpTarget f.pc w - 1 := by
    show ((f.pc + 1 : Nat) : Int) + _ = _
    rw [Prototype.jumpTarget]
    omega
  simp only [jump?, htarget, Bool.and_eq_true, decide_eq_true_eq]
  rfl

end Frame

namespace Prototype

/-- The index of the first instruction among rows, or the end of the code when there is none. -/
def nextInstruction (rows : List Row) (size : Nat) : Nat :=
  match rows.find? (!·.isExtra) with
  | some r => r.index
  | none => size

theorem map_rowsFrom (n : Nat) (ws : List Word) : (rowsFrom n ws).map (fun r => (r.word, r.index)) = ws.zipIdx n := by
  fun_induction rowsFrom n ws with
  | case1 => rfl
  | case2 => rfl
  | case3 n w extra rest hextra ih => simp [ih]
  | case4 n w extra rest hextra ih => simp [ih]

theorem nextInstruction_rowsFrom (n : Nat) (ws : List Word) : nextInstruction (rowsFrom n ws) (n + ws.length) = n := by
  fun_cases rowsFrom n ws <;> simp [nextInstruction]

def rawWords (rows : List Row) : List Word := (rows.takeWhile Row.isExtra).map Row.word

theorem rawWords_rowsFrom (n : Nat) (ws : List Word) : rawWords (rowsFrom n ws) = [] := by
  fun_cases rowsFrom n ws <;> simp [rawWords]

/-- Behind an instruction follow its raw word and the next instruction, in code of which some words are listed. -/
theorem rowsFrom_split {listed ws : List Word} {n : Nat} {front rest : List Row} {r : Row} (hn : listed.length = n)
    (h : rowsFrom n ws = front ++ r :: rest) (hr : r.isExtra = false) :
    nextInstruction rest (listed ++ ws).length = r.word.behind r.index (listed ++ ws).length ∧
      rawWords rest = if r.word.hasExtraWord then ((listed ++ ws)[r.index + 1]?).toList else [] := by
  fun_induction rowsFrom n ws generalizing listed front with
  | case1 => simp at h
  | case2 n w =>
    obtain ⟨rfl, rfl, rfl⟩ : front = [] ∧ r = ⟨n, w, false⟩ ∧ rest = [] := by
      cases front <;> simp_all
    simp [nextInstruction, rawWords, Word.behind, hn]
  | case3 n w extra ws hextra ih =>
    have hlength : (listed ++ w :: extra :: ws).length = n + 2 + ws.length := by
      simp only [List.length_append, List.length_cons]
      omega
    cases front with
    | nil =>
      obtain ⟨rfl, rfl⟩ : ⟨n, w, false⟩ = r ∧ _ = rest := by simpa using h
      have hword : (listed ++ w :: extra :: ws)[n + 1]? = some extra := by simp [← hn]
      rw [hlength]
      refine ⟨?_, ?_⟩
      · show nextInstruction (rowsFrom (n + 2) ws) _ = _
        rw [nextInstruction_rowsFrom, Word.behind, if_pos hextra]
        exact (Nat.min_eq_left (Nat.le_add_right ..)).symm
      · show extra :: rawWords (rowsFrom (n + 2) ws) = _
        rw [rawWords_rowsFrom, if_pos hextra, hword]
        rfl
    | cons _ front =>
      cases front with
      | nil =>
        -- the raw word is no instruction
        obtain ⟨-, rfl, -⟩ := by simpa using h
        cases hr
      | cons _ front =>
        obtain ⟨-, -, h⟩ := by simpa using h
        simpa using ih (show (listed ++ [w, extra]).length = n + 2 by simp [hn]) h
  | case4 n w extra ws hextra ih =>
    have hlength : (listed ++ w :: extra :: ws).length = n + 1 + (extra :: ws).length := by
      simp only [List.length_append, List.length_cons]
      omega
    cases front with
    | nil =>
      obtain ⟨rfl, rfl⟩ : ⟨n, w, false⟩ = r ∧ _ = rest := by simpa using h
      rw [hlength, nextInstruction_rowsFrom, rawWords_rowsFrom, Word.behind, if_neg hextra, if_neg hextra]
      exact ⟨rfl, rfl⟩
    | cons _ front =>
      obtain ⟨-, h⟩ := by simpa using h
      simpa using ih (show (listed ++ [w]).length = n + 1 by simp [hn]) h

section

variable (showValue : Value → String) (p : Prototype)

/-- A row has a line of its own, with its index counted from one. -/
theorem rowText_eq (r : Row) : ∃ line : String, rowText showValue p r =
    "\t" ++ padLeft 4 (r.index + 1) ++ "\t[" ++ line ++ "]\t" ++
      (if r.isExtra then "EXTRAARG  " ++ toString r.word.bits.toNat else instructionText showValue p r.index r.word) ++
      "\n" := by
  have label (front raw : String) : front ++ "]\tEXTRAARG  " ++ raw = front ++ "]\t" ++ ("EXTRAARG  " ++ raw) := by
    rw [show "]\tEXTRAARG  " = "]\t" ++ "EXTRAARG  " from rfl]
    simp only [String.append_assoc]
  unfold rowText
  split
  · exact ⟨_, congrArg (· ++ "\n") (label _ _)⟩
  · exact ⟨_, rfl⟩

theorem instructionText_of_jumps {w : Word} {op : Opcode} (hop : w.opcode? = some op) (hj : op.jumps) (index : Nat) :
    ∃ text : String, instructionText showValue p index w = text ++ "\t; to " ++ toString (jumpTarget index w) := by
  have hnote : note showValue p index op w = "\t; to " ++ toString (jumpTarget index w) := by
    cases op <;> first | rfl | cases hj
  unfold instructionText
  rw [hop]
  dsimp only
  rw [hnote]
  exact ⟨_, (String.append_assoc ..).symm⟩

end

/-- What the listing of a prototype says of an instruction, given the raw words and the next instruction behind it, holds
of the frames that stand at it. -/
structure Row.Agrees (showValue : Value → String) (p : Prototype) (r : Row) (raw : List Word) (next : Nat) : Prop where
  /-- Frames fetch it, and the raw word with it. -/
  fetch {f : Frame} : f.prototype = p → f.pc = r.index →
    f.fetch = (some r.word, f.skip) ∧ (f.pass r.word).1.toList = raw ∧ (f.pass r.word).2.pc = next
  /-- The line that a jump shows is that of the index at which the frame stands afterwards, counted from one. -/
  jump {f : Frame} {op : Opcode} : f.prototype = p → f.pc = r.index → r.word.opcode? = some op → op.jumps →
    let target := jumpTarget r.index r.word
    (∃ text : String, instructionText showValue p r.index r.word = text ++ "\t; to " ++ toString target) ∧
      f.skip.jump? r.word.sbx.toInt =
        if 0 ≤ target - 1 ∧ target - 1 ≤ p.code.size then some { f with pc := (target - 1).toNat } else none
  /-- When it has run, whatever came of it, the frame stands at the next instruction, or where it may go on; unless it
  has returned, or a closure that was called in tail position has taken its place. -/
  step {host : Host} {q : Purpose} {m m' : Machine} {below : List Level} {f : Frame} {fs : List Frame} {time : Nat}
    {out : Except Fault (Option (List Value))} : Config.Reachable host (.loop q m below) →
    m.fiber.calls.frames = f :: fs → f.prototype = p → f.pc = r.index → m.isCancelled m.fiber.token = false →
    r.word.opcode? ≠ some .ret →
    (r.word.opcode? = some .tailCall → ∀ k, m.arena.get (f.base + r.word.a.toNat) ≠ .closure k) →
    (Exec.step host q.stop m).run (serve host time) = some (out, m') →
    m'.RestsAt f.closure fs (r.word.GoesTo r.index next)

/-- For every prototype, whatever its words: the listing has a line for each code word, in their order, and no other
between its heading and the captured variables; and what it says of each instruction agrees with the frames. -/
theorem listing_agrees (showValue : Value → String) (p : Prototype) :
    (∀ path, ∃ heading captures, ownListing showValue path p =
      heading ++ String.join (p.rows.map (rowText showValue p)) ++ captures) ∧
    (p.rows.map fun r => (r.word, r.index)) = p.code.toList.zipIdx ∧
    (∀ r ∈ p.rows, ∃ line : String, rowText showValue p r =
      "\t" ++ padLeft 4 (r.index + 1) ++ "\t[" ++ line ++ "]\t" ++
        (if r.isExtra then "EXTRAARG  " ++ toString r.word.bits.toNat else instructionText showValue p r.index r.word) ++
        "\n") ∧
    ∀ front r rest, p.rows = front ++ r :: rest → r.isExtra = false →
      r.Agrees showValue p (rawWords rest) (nextInstruction rest p.code.size) := by
  have hmap := map_rowsFrom 0 p.code.toList
  refine ⟨fun path => ⟨_, _, rfl⟩, hmap, fun r _ => rowText_eq showValue p r, fun front r rest h hr => ?_⟩
  obtain ⟨hnext, hraw⟩ := rowsFrom_split (show [].length = 0 from rfl) h hr
  have hword : p.code[r.index]? = some r.word := by
    have hmem : (r.word, r.index) ∈ p.code.toList.zipIdx := by
      rw [← hmap, show rowsFrom 0 p.code.toList = _ from h]
      simp
    simpa using List.mem_zipIdx_iff_getElem?.1 hmem
  rw [List.nil_append, Array.length_toList] at hnext
  have hat {f : Frame} (hp : f.prototype = p) (hpc : f.pc = r.index) : f.word? = some r.word := by
    rw [Frame.word?, hp, hpc, hword]
  refine ⟨fun {f} hp hpc => ⟨?_, ?_, ?_⟩, fun {f op} hp hpc hop hj => ?_, ?_⟩
  · rw [Frame.fetch, hat hp hpc]
  · rw [Frame.pass_eq, hraw]
    split
    · rw [Frame.fetch_word, ← hpc, Array.getElem?_toList, ← hp]
      rfl
    · rfl
  · rw [Frame.pass_pc (hat hp hpc), hp, hpc, hnext]
  · refine ⟨instructionText_of_jumps showValue p hop hj r.index, ?_⟩
    rw [Frame.jump?_target, hp, hpc]
  · intro host q m m' below f fs time out hc hframes hp hpc halive hret hcallee hstep
    have hd : Exec.Due m f r.word := ⟨frame?_of_frames hframes, hat hp hpc, halive⟩
    have hrests := Exec.rests_of_step hc.scheduled hframes hd hret hcallee hstep
    rwa [hp, hpc, ← hnext] at hrests

/-- Loads a constant by way of a raw word, over and over. -/
def farConstant : Prototype where
  name := "far"
  source := "far"
  code := #[.abx .loadKX 0 0, ⟨0⟩, .asbx .jmp 0 (-3)]
  constants := #[.int 7]

/-- The frame goes from the first line to the third, from which the jump leads back. -/
theorem listing_agrees_far :
    let host : Host := fun _ _ => .done []
    let m := (Config.steps host 2 (Config.ask host (.call (.closure ⟨0⟩) [])
      ((bare ⟨4, 64, 8, 8⟩).load farConstant).2 [])).machine
    ∃ m' g, (Exec.step host 0 m).run (serve host 9) = some (.ok none, m') ∧ g ∈ m'.fiber.calls.frames ∧ g.pc = 2 ∧
      g.skip.jump? (-3) = some { g with pc := 0 } := by
  intro host m
  have hc : Config.Reachable host (.loop (.call 0 0) m []) :=
    Config.reachable_asked host ⟨4, 64, 8, 8⟩ [.load farConstant] (.call (.closure ⟨0⟩) []) 2
  obtain ⟨m', h⟩ : ∃ m', (Exec.step host 0 m).run (serve host 9) = some (.ok none, m') := by
    have hok : ((Exec.step host 0 m).run (serve host 9)).bind (fun p => p.1.toOption) = some none := by
      decide +kernel
    obtain ⟨⟨_ | e, m'⟩, hrun, he⟩ := Option.bind_eq_some_iff.1 hok <;> cases he
    exact ⟨m', hrun⟩
  obtain ⟨f, hf⟩ : ∃ f, m.fiber.calls.frames = [f] := ⟨_, rfl⟩
  obtain rfl : m.frame?.getD default = f := by
    rw [frame?_of_frames hf]
    rfl
  have agrees := (listing_agrees (fun _ => "7") farConstant).2.2.2
  have first := agrees [] ⟨0, .abx .loadKX 0 0, false⟩ [⟨1, ⟨0⟩, true⟩, ⟨2, .asbx .jmp 0 (-3), false⟩] rfl rfl
  have last := agrees [⟨0, .abx .loadKX 0 0, false⟩, ⟨1, ⟨0⟩, true⟩] ⟨2, .asbx .jmp 0 (-3), false⟩ [] rfl rfl
  obtain ⟨g, hg, hclosure, hpc⟩ := first.step hc hf rfl rfl rfl (by decide) (fun h => absurd h (by decide)) h
  have hload : (Word.abx .loadKX 0 0).opcode? = some .loadKX := by decide
  have hpc : g.pc = 2 := hpc.eq_next hload rfl rfl
  have hp : g.prototype = farConstant := congrArg Closure.prototype hclosure
  have hjmp : (Word.asbx .jmp 0 (-3)).opcode? = some .jmp := by decide
  exact ⟨m', g, h, hg.subset (List.mem_cons_self ..), hpc, (last.jump hp hpc hjmp rfl).2⟩

end Prototype
end RegisterMachine
