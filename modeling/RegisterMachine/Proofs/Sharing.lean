import RegisterMachine.Proofs.Lifetimes

/-! Captured variables are shared, and then frozen. A new closure holds the brokers that its frame has for what it
captures, so closures share a register until it is closed, and its value from then on. -/
namespace RegisterMachine

open Machine Exec

variable {host : Host}

namespace Frame

def captured? (f : Frame) (c : Capture) : Option (Ref .broker) :=
  if c.inRegister then f.broker? (f.base + c.index.toNat) else f.closure.brokers[c.index.toNat]?

/-- The frame of the same closure, with the brokers it had and maybe more. -/
structure Extends (f f' : Frame) : Prop where
  closure : f'.closure = f.closure
  base : f'.base = f.base
  broker : ∀ slot r, f.broker? slot = some r → f'.broker? slot = some r

theorem Extends.refl (f : Frame) : f.Extends f := ⟨rfl, rfl, fun _ _ h => h⟩

theorem Extends.trans {f f' f'' : Frame} (h : f.Extends f') (h' : f'.Extends f'') : f.Extends f'' :=
  ⟨h'.closure.trans h.closure, h'.base.trans h.base, fun slot r hr => h'.broker slot r (h.broker slot r hr)⟩

theorem Extends.captured? {f f' : Frame} (h : f.Extends f') {c : Capture} {r : Ref .broker}
    (hr : f.captured? c = some r) : f'.captured? c = some r := by
  unfold Frame.captured? at hr ⊢
  split at hr
  · rename_i hc
    rw [if_pos hc, h.base]
    exact h.broker _ _ hr
  · rename_i hc
    rw [if_neg hc, h.closure]
    exact hr

theorem lookup_cons_ite (p : Nat × Ref .broker) (live : List (Nat × Ref .broker)) (s : Nat) :
    (p :: live).lookup s = if s = p.1 then some p.2 else live.lookup s := by
  rw [List.lookup_cons]
  by_cases h : s = p.1
  · rw [if_pos h, beq_iff_eq.2 h]
  · rw [if_neg h, beq_eq_false_iff_ne.2 h]

theorem lookup_insertBroker {slot : Nat} (r : Ref .broker) {live : List (Nat × Ref .broker)}
    (h : live.lookup slot = none) (s : Nat) :
    (insertBroker slot r live).lookup s = if s = slot then some r else live.lookup s := by
  induction live with
  | nil => exact lookup_cons_ite _ _ _
  | cons p rest ih =>
    obtain ⟨t, q⟩ := p
    rw [lookup_cons_ite] at h
    obtain ⟨hne, hrest⟩ : slot ≠ t ∧ rest.lookup slot = none := by
      split at h
      · cases h
      · rename_i hne
        exact ⟨hne, h⟩
    unfold insertBroker
    split
    · exact lookup_cons_ite _ _ _
    · rw [lookup_cons_ite, lookup_cons_ite, ih hrest]
      by_cases hs : s = slot
      · rw [if_neg (hs ▸ hne), if_pos hs, if_pos hs]
      · rw [if_neg hs, if_neg hs]

theorem mem_of_lookup {live : List (Nat × Ref .broker)} {slot : Nat} {r : Ref .broker}
    (h : live.lookup slot = some r) : (slot, r) ∈ live := by
  induction live with
  | nil => cases h
  | cons p rest ih =>
    rw [lookup_cons_ite] at h
    split at h
    · rename_i hs
      cases h
      rw [hs]
      exact List.mem_cons_self
    · exact List.mem_cons_of_mem _ (ih h)

theorem extends_addBroker {f : Frame} {slot : Nat} (r : Ref .broker) (h : f.broker? slot = none) :
    f.Extends (f.addBroker slot r) := by
  refine ⟨rfl, rfl, fun s q hq => ?_⟩
  have hne : s ≠ slot := by
    rintro rfl
    rw [h] at hq
    cases hq
  exact (lookup_insertBroker r h s).trans ((if_neg hne).trans hq)

theorem broker?_addBroker {f : Frame} {slot : Nat} (r : Ref .broker) (h : f.broker? slot = none) :
    (f.addBroker slot r).broker? slot = some r := (lookup_insertBroker r h slot).trans (if_pos rfl)

end Frame

namespace Machine

variable {m m' m'' : Machine} {f f' : Frame}

/-- Variables of the innermost frame are captured; all else stays. -/
structure Opens (m m' : Machine) (f f' : Frame) : Prop where
  frame : m'.frame? = some f'
  grows : f.Extends f'
  running : m'.fiber.arena = m.fiber.arena
  depth : m'.callDepth = m.callDepth
  arenas : m'.heap.arenas = m.heap.arenas

theorem Opens.refl (hf : m.frame? = some f) : Opens m m f f := ⟨hf, .refl f, rfl, rfl, rfl⟩

theorem Opens.trans {f'' : Frame} (h : Opens m m' f f') (h' : Opens m' m'' f' f'') : Opens m m'' f f'' :=
  ⟨h'.frame, h.grows.trans h'.grows, h'.running.trans h.running, h'.depth.trans h.depth, h'.arenas.trans h.arenas⟩

theorem opens_openBroker {slot : Nat} (hf : m.frame? = some f) (hn : f.broker? slot = none) :
    Opens m (m.openBroker slot) f (f.addBroker slot (m.heap.newBroker (.live m.fiber.arena slot)).1) := by
  refine ⟨?_, Frame.extends_addBroker _ hn, rfl, depth_modifyTop _ _, rfl⟩
  exact frame?_modifyFrame (m := { m with heap := (m.heap.newBroker (.live m.fiber.arena slot)).2 }) _ hf

end Machine

namespace Exec

variable {m : Machine} {f : Frame}

def captureOne (c : Capture) : Exec (Ref .broker) :=
  if c.inRegister then do capture ((← base) + c.index.toNat) else upvalue c.index.toNat

theorem captureAll_cons (c : Capture) (cs : List Capture) : captureAll (c :: cs) =
    captureOne c >>= fun r => captureAll cs >>= fun rs => pure (r :: rs) := by
  rw [captureAll, captureOne]
  cases c.inRegister with
  | true =>
    simp only [if_true, bind_assoc]
  | false => rfl

/-- One variable is captured, unless the closure has none of that number. -/
theorem captureOne_cases (c : Capture) (hf : m.frame? = some f) :
    (c.inRegister = false ∧ f.closure.brokers[c.index.toNat]? = none ∧
      captureOne c m = .raise (.runtime (.badUpvalue c.index.toNat)) m) ∨
    ∃ r m' f', captureOne c m = .ret r m' ∧ Opens m m' f f' ∧ f'.captured? c = some r := by
  cases hc : c.inRegister with
  | true =>
    have hx : captureOne c m = capture (f.base + c.index.toNat) m := by
      simp only [captureOne, hc, if_true, bind_eq, Exec.base, read, Step.bind, base_eq hf]
    have hcaptured (g : Frame) : g.captured? c = g.broker? (g.base + c.index.toNat) := if_pos hc
    rw [hx, capture_eq]
    simp only [hf]
    cases hb : f.broker? (f.base + c.index.toNat) with
    | some r => exact .inr ⟨r, m, f, rfl, .refl hf, (hcaptured f).trans hb⟩
    | none =>
      refine .inr ⟨_, _, _, rfl, opens_openBroker hf hb, ?_⟩
      rw [hcaptured]
      exact Frame.broker?_addBroker _ hb
  | false =>
    have hx : captureOne c m = upvalue c.index.toNat m := by
      simp only [captureOne, hc, Bool.false_eq_true, if_false]
    rw [hx, upvalue_eq hf]
    cases hb : f.closure.brokers[c.index.toNat]? with
    | none => exact .inl ⟨rfl, rfl, rfl⟩
    | some r =>
      refine .inr ⟨r, m, f, rfl, .refl hf, ?_⟩
      unfold Frame.captured?
      rw [hc]
      exact hb

/-- All variables are captured in turn, if the closure has all that are wanted of it. -/
theorem captureAll_cases (cs : List Capture) (hf : m.frame? = some f) :
    ((∃ c ∈ cs, c.inRegister = false ∧ f.closure.brokers[c.index.toNat]? = none) ∧
      ∃ e m', captureAll cs m = .raise e m') ∨
    ∃ rs m' f', captureAll cs m = .ret rs m' ∧ Opens m m' f f' ∧ cs.map f'.captured? = rs.map some := by
  induction cs generalizing m f with
  | nil => exact .inr ⟨[], m, f, rfl, .refl hf, rfl⟩
  | cons c cs ih =>
    rw [captureAll_cons, bind_eq]
    obtain ⟨hc, hnone, hx⟩ | ⟨r, m₁, f₁, hx, hopens, hr⟩ := captureOne_cases c hf <;> rw [hx]
    · exact .inl ⟨⟨c, List.mem_cons_self, hc, hnone⟩, _, _, rfl⟩
    · have hrest : (Step.ret r m₁).bind (fun r => captureAll cs >>= fun rs => (pure (r :: rs) : Exec _)) =
          (captureAll cs m₁).bind fun rs => (pure (r :: rs) : Exec _) := bind_eq (captureAll cs) _ m₁
      rw [hrest]
      obtain ⟨⟨c', hmem, hc', hnone⟩, e, m', h⟩ | ⟨rs, m₂, f₂, h, hopens', hmap⟩ := ih hopens.frame
      · refine .inl ⟨⟨c', List.mem_cons_of_mem _ hmem, hc', hopens.grows.closure ▸ hnone⟩, e, m', ?_⟩
        rw [h]
        rfl
      · refine .inr ⟨r :: rs, m₂, f₂, ?_, hopens.trans hopens', ?_⟩
        · rw [h]
          rfl
        · rw [List.map_cons, List.map_cons, hmap, hopens'.grows.captured? hr]

end Exec

namespace Machine

variable {m m' : Machine} {f : Frame} {w : Word}

/-- A closure of a child can be made, and there is room for it in its register. -/
def Makeable (m : Machine) (f : Frame) (w : Word) : Prop :=
  ∃ child, f.prototype.children[w.bx.toNat]? = some child ∧ m.arena.admits (f.base + w.a.toNat) ∧
    ∀ c ∈ child.captures.toList, c.inRegister = false → (f.closure.brokers[c.index.toNat]?).isSome

/-- A closure of a child is in its register. It holds the brokers that the frame has for what it captures; those
that were there before are among them. -/
structure Makes (m : Machine) (f : Frame) (w : Word) (m' : Machine) (child : Prototype) (q : Ref .closure)
    (f' : Frame) : Prop where
  listed : f.prototype.children[w.bx.toNat]? = some child
  register : m'.arena.get (f.base + w.a.toNat) = .closure q
  prototype : (m'.heap.closure q).prototype = child
  brokers : child.captures.toList.map f'.captured? = (m'.heap.closure q).brokers.toList.map some
  frame : m'.frame? = some f'
  grows : f.Extends f'
  running : m'.fiber.arena = m.fiber.arena
  depth : m'.callDepth = m.callDepth

end Machine

namespace Exec

variable {m : Machine} {f : Frame} {w : Word}

theorem setSlot_cases (i : Nat) (v : Value) (m : Machine) :
    (¬m.arena.admits i ∧ setSlot i v m = .raise .stackOverflow m) ∨
      setSlot i v m = .ret () (m.modifyArena (·.put i v)) ∧ (m.modifyArena (·.put i v)).arena.get i = v := by
  unfold setSlot
  split
  · rename_i hfit
    refine .inr ⟨rfl, ?_⟩
    have harena : (m.modifyArena (Arena.Op.put i v).apply).arena = m.arena.put i v := arena_modifyArena hfit
    exact (congrArg (·.get i) harena).trans (Arena.get_put hfit v)
  · rename_i hfit
    exact .inl ⟨hfit, rfl⟩

theorem makeClosure_eq (n : Nat) (hf : m.frame? = some f) : makeClosure n m =
    match f.prototype.children[n]? with
    | none => .raise (.runtime (.badFunction n)) m
    | some child => (captureAll child.captures.toList m).bind fun rs m =>
        .ret (.closure (m.heap.newClosure ⟨child, rs.toArray⟩).1)
          { m with heap := (m.heap.newClosure ⟨child, rs.toArray⟩).2 } := by
  unfold makeClosure
  rw [bind_eq]
  simp only [frame, hf, Step.bind]
  cases f.prototype.children[n]? with
  | none => rfl
  | some child => exact bind_eq _ _ m

theorem makeClosure_cases (n : Nat) (hf : m.frame? = some f) :
    ((∀ child, f.prototype.children[n]? = some child → ∃ c ∈ child.captures.toList, c.inRegister = false ∧
      f.closure.brokers[c.index.toNat]? = none) ∧ ∃ e m', makeClosure n m = .raise e m') ∨
    ∃ child q m' f', f.prototype.children[n]? = some child ∧ Opens m m' f f' ∧
      (m'.heap.closure q).prototype = child ∧
      child.captures.toList.map f'.captured? = (m'.heap.closure q).brokers.toList.map some ∧
      makeClosure n m = .ret (.closure q) m' := by
  rw [makeClosure_eq n hf]
  cases hchild : f.prototype.children[n]? with
  | none => exact .inl ⟨fun _ h => (nomatch h), _, _, rfl⟩
  | some child =>
    dsimp only
    obtain ⟨hc, e, m', h⟩ | ⟨rs, m', f', h, hopens, hmap⟩ := captureAll_cases child.captures.toList hf <;> rw [h]
    · refine .inl ⟨fun child' h => ?_, e, m', rfl⟩
      cases h
      exact hc
    · have hclosure : (m'.heap.newClosure ⟨child, rs.toArray⟩).2.closure
          (m'.heap.newClosure ⟨child, rs.toArray⟩).1 = ⟨child, rs.toArray⟩ := by
        simp [Heap.closure, Heap.newClosure, Store.getD, Store.alloc]
      refine .inr ⟨child, _, { m' with heap := (m'.heap.newClosure ⟨child, rs.toArray⟩).2 }, f', rfl,
        ⟨hopens.frame, hopens.grows, hopens.running, hopens.depth, hopens.arenas⟩,
        congrArg Closure.prototype hclosure, ?_, rfl⟩
      exact hmap.trans (congrArg (fun k => k.brokers.toList.map some) hclosure).symm

variable (host) in
/-- A closure is made whenever it can be. -/
theorem closure_cases (stop : Nat) (hd : Due m f w) (hop : w.opcode? = some .closure) :
    (¬m.Makeable f w ∧ ∃ e m', step host stop m = .raise e m') ∨
      ∃ m' child q f', step host stop m = .ret none m' ∧ Makes m f w m' child q f' := by
  rw [hd.step_eq host stop hop fun h => nomatch h]
  have hrun : Opcode.run host .closure w (m.modifyFrame Frame.skip) =
      (makeClosure w.bx.toNat (m.modifyFrame Frame.skip)).bind fun v => setRegister w.a v := by
    show Instruction.closure w _ = _
    unfold Instruction.closure
    rw [bind_eq]
  rw [hrun]
  obtain ⟨hnone, e, m', h⟩ | ⟨child, q, m', f', hchild, hopens, hprototype, hmap, h⟩ :=
    makeClosure_cases w.bx.toNat hd.frame?_skip <;> rw [h]
  · refine .inl ⟨?_, e, m', rfl⟩
    rintro ⟨child, hchild, -, hup⟩
    obtain ⟨c, hc, hin, hb⟩ := hnone child hchild
    obtain ⟨r, hr⟩ := Option.isSome_iff_exists.1 (hup c hc hin)
    exact absurd (hb.symm.trans hr) fun h => nomatch h
  · have hregister : (Step.ret (.closure q) m').bind (fun v => setRegister w.a v) =
        setSlot (f.base + w.a.toNat) (.closure q) m' := by
      have hbase : m'.base = f.base := (base_eq hopens.frame).trans hopens.grows.base
      show setRegister w.a (.closure q) m' = _
      simp only [setRegister, bind_eq, Exec.base, read, Step.bind, hbase]
    have harena : m'.arena = m.arena := by
      show m'.heap.arena m'.fiber.arena = m.heap.arena m.fiber.arena
      rw [hopens.running, Heap.arena_eq, Heap.arena_eq, hopens.arenas]
      rfl
    rw [hregister]
    obtain ⟨hfull, h⟩ | ⟨h, hget⟩ := setSlot_cases (f.base + w.a.toNat) (.closure q) m' <;> rw [h]
    · refine .inl ⟨?_, _, _, rfl⟩
      rintro ⟨-, -, hfit, -⟩
      exact hfull (harena ▸ hfit)
    · exact .inr ⟨_, child, q, f', rfl, hchild, hget, hprototype, hmap, hopens.frame, ⟨hopens.grows.closure,
        hopens.grows.base, hopens.grows.broker⟩, hopens.running, hopens.depth.trans (depth_modifyTop _ _)⟩

end Exec

namespace Machine

variable {m m' : Machine} {f f' : Frame} {w : Word} {child : Prototype} {q : Ref .closure}

theorem Makes.captured (h : Makes m f w m' child q f') {j : Nat} {c : Capture} {r : Ref .broker}
    (hc : child.captures[j]? = some c) (hr : (m'.heap.closure q).brokers[j]? = some r) : f'.captured? c = some r := by
  have hget := congrArg (fun l => l[j]?) h.brokers
  simp only [List.getElem?_map, Array.getElem?_toList, hc, hr, Option.map_some] at hget
  exact Option.some.inj hget

/-- The broker for a register that a new closure captures is listed for it. -/
theorem Makes.lists (h : Makes m f w m' child q f') {j : Nat} {c : Capture} {r : Ref .broker}
    (hc : child.captures[j]? = some c) (hin : c.inRegister = true)
    (hr : (m'.heap.closure q).brokers[j]? = some r) :
    m'.Lists ⟨m.fiber.arena, m.callDepth - 1, f.base + c.index.toNat, r⟩ := by
  have hbroker : f'.broker? (f.base + c.index.toNat) = some r := by
    have hcaptured := h.captured hc hr
    unfold Frame.captured? at hcaptured
    rwa [if_pos hin, h.grows.base] at hcaptured
  have hlists := Config.lists_of_frame? h.frame (Frame.mem_of_lookup hbroker)
  rwa [h.running, h.depth] at hlists

end Machine

namespace Config

open Ledger

variable {c c' : Config} {k k' : Link} {m : Machine} {r : Ref .broker}

/-- The next step makes a closure that captures a slot of its frame, with a broker for it. -/
inductive Captures (host : Host) (k : Link) : Config → Prop
  | intro {p : Purpose} {m m' : Machine} {below : List Level} {f : Frame} {w : Word} {child : Prototype}
      {q : Ref .closure} {j : Nat} {capture : Capture} : Due m f w → w.opcode? = some .closure →
      f.prototype.children[w.bx.toNat]? = some child → child.captures[j]? = some capture →
      capture.inRegister = true → Exec.step host p.stop m = .ret none m' →
      m'.arena.get (f.base + w.a.toNat) = .closure q → (m'.heap.closure q).brokers[j]? = some k.broker →
      k.arena = m.fiber.arena → m.callDepth = k.height + 1 → k.slot = f.base + capture.index.toNat →
      Captures host k (.loop p m below)

theorem open_of_captures (h : Captures host k c) {k' : Link} (ha : k'.arena = k.arena) (hh : k'.height = k.height) :
    ¬c.Closes k' ∧ ¬Gone k' c := by
  cases h with
  | @intro p m m' below f w _ _ _ _ hd hop _ _ _ _ _ _ harena hdepth _ =>
    refine ⟨?_, fun hgone => ?_⟩
    · rintro ⟨g, start, hclosing, -⟩
      have hword {w' : Word} (hd' : Due m g w') : w' = w := by
        obtain rfl : g = f := Option.some.inj (hd'.frame.symm.trans hd.frame)
        exact Option.some.inj (hd'.word.symm.trans hd.word)
      have hopcode {op : Opcode} {w' : Word} (hd' : Due m g w') (hop' : w'.opcode? = some op) : op = .closure := by
        rw [hword hd', hop] at hop'
        exact (Option.some.inj hop').symm
      cases hclosing with
      | close hd' hop' => cases hopcode hd' hop'
      | jump hd' hop' _ => cases hopcode hd' hop'
      | tailCall hd' hop' _ => cases hopcode hd' hop'
      | ret hd' hop' => cases hopcode hd' hop'
      | finish hf hw _ =>
        obtain rfl : g = f := Option.some.inj (hf.symm.trans hd.frame)
        exact absurd (hw.symm.trans hd.word) fun h => nomatch h
    · have hle := hgone m.fiber List.mem_cons_self (harena.symm.trans ha.symm)
      change m.callDepth ≤ k'.height at hle
      omega

theorem lists_of_captures (h : Captures host k c) (hl : Leads host c c') : c'.machine.Lists k := by
  cases h with
  | @intro p m m' below f w child q j capture hd hop hchild hc hin hstep hq hr ha hh hs =>
    have hmachine : c'.machine = m' := by
      cases hl with
      | next hn =>
        cases hn
        show (Exec.step host p.stop m).machine = m'
        rw [hstep]
        rfl
    obtain ⟨-, e, m'', h⟩ | ⟨m'', child', q', f', h, hmakes⟩ := Exec.closure_cases host p.stop hd hop
    · rw [hstep] at h
      cases h
    · rw [hstep] at h
      cases h
      obtain rfl : child = child' := Option.some.inj (hchild.symm.trans hmakes.listed)
      have hqq := hq.symm.trans hmakes.register
      cases hqq
      have hlists := hmakes.lists hc hin hr
      have hk : (⟨m.fiber.arena, m.callDepth - 1, f.base + capture.index.toNat, k.broker⟩ : Link) = k := by
        obtain ⟨arena, height, slot, broker⟩ := k
        change m.callDepth = height + 1 at hh
        obtain rfl : arena = m.fiber.arena := ha
        obtain rfl : slot = f.base + capture.index.toNat := hs
        rw [hh]
        rfl
      rw [hmachine, ← hk]
      exact hlists

theorem eq_of_place (hb : Ledger.Balanced m.ledger) (hd : Ledger.Distinct m.ledger) (hk : m.Lists k)
    (hk' : m.Lists k') (ha : k.arena = k'.arena) (hh : k.height = k'.height) (hs : k.slot = k'.slot) : k = k' := by
  obtain ⟨fiber, hf, hfa, hlisted⟩ := hk
  obtain ⟨fiber', hf', hfa', hlisted'⟩ := hk'
  obtain rfl := eq_of_arena hb hf hf' (hfa.trans (ha.trans hfa'.symm))
  exact hd fiber.unit (List.mem_map_of_mem hf) k (mem_linksOf.2 ⟨hfa, hlisted⟩) k' (mem_linksOf.2 ⟨hfa', hlisted'⟩)
    hh hs

/-- Two closures hold the same broker for a register that they capture if and only if nothing has closed the
register between them, nor has the frame gone. -/
theorem broker_eq_iff {run : Nat → Config} {n : Nat} (h₀ : Reachable host (run 0))
    (hrun : ∀ i, i < n → Leads host (run i) (run (i + 1))) {i j : Nat} (hij : i < j) (hj : j < n)
    (hk : Captures host k (run i)) (hk' : Captures host k' (run j)) (ha : k'.arena = k.arena)
    (hh : k'.height = k.height) (hs : k'.slot = k.slot) :
    k'.broker = k.broker ↔ ∀ d, i < d → d < j → ¬(run d).Closes k ∧ ¬Gone k (run d) := by
  have hlists := lists_of_captures hk (hrun i (Nat.lt_trans hij hj))
  have hlists' := lists_of_captures hk' (hrun j hj)
  have hreach := reachable_run h₀ hrun hj
  have hplace : k'.broker = k.broker ↔ (run (j + 1)).machine.Lists k := by
    constructor
    · intro hr
      obtain ⟨arena, height, slot, broker⟩ := k'
      obtain rfl : arena = k.arena := ha
      obtain rfl : height = k.height := hh
      obtain rfl : slot = k.slot := hs
      obtain rfl : broker = k.broker := hr
      exact hlists'
    · intro h
      rw [eq_of_place hreach.ledger_balanced hreach.distinct hlists' h ha hh hs]
  have hstays : ¬Gone k (run (j + 1)) := by
    obtain ⟨fiber, hf, hfa, frame, below, hsuffix, hheight, -⟩ := hlists'
    intro hgone
    have hle := hgone fiber hf (hfa.trans ha)
    have hlen := hsuffix.length_le
    rw [fiber.calls.depth_eq] at hle
    rw [List.length_cons, hheight, hh] at hlen
    omega
  rw [hplace, lists_between h₀ hrun hj (Nat.succ_le_succ (Nat.le_of_lt hij)) hlists hstays]
  constructor
  · exact fun h d hid hdj => h d hid (Nat.lt_succ_of_lt hdj)
  · intro h d hid hdj
    obtain hdj | rfl := Nat.lt_or_eq_of_le (Nat.le_of_lt_succ hdj)
    · exact h d hid hdj
    · exact open_of_captures hk' ha.symm hh.symm

def fieldOf (w : Word) (object : Value) : Exec Unit := do
  let key ← operand w.operandC
  setRegister w.a (← (Script.index object key).exec)

def setFieldOf (w : Word) (object : Value) : Exec Unit := do
  let key ← operand w.operandB
  let v ← operand w.operandC
  (Script.setIndex object key v).exec

/-- A captured variable holds one value. It is read and assigned through its broker, by whatever closure holds it,
and it is the value of its slot for as long as it is live. -/
structure Cell (host : Host) (m : Machine) (r : Ref .broker) : Prop where
  live : ∀ a slot, m.heap.brokers.get? r = some (.live a slot) →
    m.heap.brokerValue r = (m.heap.arena a).get slot
  closed : ∀ v, m.heap.brokers.get? r = some (.closed v) → m.heap.brokerValue r = v
  /-- Reading fails only for want of room for the register. -/
  read : ∀ f w stop, Due m f w → w.opcode? = some .getUpval → f.closure.brokers[w.b.toNat]? = some r →
    (¬m.arena.admits (f.base + w.a.toNat) ∧ ∃ m', Exec.step host stop m = .raise .stackOverflow m') ∨
      ∃ m', Exec.step host stop m = .ret none m' ∧ m'.arena.get (f.base + w.a.toNat) = m.heap.brokerValue r
  /-- Assigning fails only for want of room for the slot. -/
  assign : ∀ f w stop, Due m f w → w.opcode? = some .setUpval → f.closure.brokers[w.b.toNat]? = some r →
    (∃ a slot, m.heap.brokers.get? r = some (.live a slot) ∧ ¬(m.heap.arena a).admits slot ∧
      ∃ m', Exec.step host stop m = .raise .stackOverflow m') ∨
    ∃ m', Exec.step host stop m = .ret none m' ∧ m'.heap.brokerValue r = m.arena.get (f.base + w.a.toNat) ∧
      ∀ a slot, m.heap.brokers.get? r = some (.live a slot) → m'.heap.brokers.get? r = some (.live a slot) ∧
        (m'.heap.arena a).get slot = m.arena.get (f.base + w.a.toNat)
  /-- A field of the variable is one of its value. -/
  readField : ∀ f w stop, Due m f w → w.opcode? = some .getTabUp → f.closure.brokers[w.b.toNat]? = some r →
    Exec.step host stop m =
      (fieldOf w (m.heap.brokerValue r) (m.modifyFrame Frame.skip)).bind fun _ m => .ret none m
  assignField : ∀ f w stop, Due m f w → w.opcode? = some .setTabUp → f.closure.brokers[w.a.toNat]? = some r →
    Exec.step host stop m =
      (setFieldOf w (m.heap.brokerValue r) (m.modifyFrame Frame.skip)).bind fun _ m => .ret none m

theorem upvalueValue_eq {n : UInt8} (hf : m.frame? = some f) (hr : f.closure.brokers[n.toNat]? = some r) :
    Instruction.upvalueValue n m = .ret (m.heap.brokerValue r) m := by
  unfold Instruction.upvalueValue
  rw [bind_eq, upvalue_eq hf, hr]
  rfl

theorem brokerValue_of_live {h : Heap} {a : Ref .arena} {slot : Nat}
    (hr : h.brokers.get? r = some (.live a slot)) : h.brokerValue r = (h.arena a).get slot := by
  rw [Heap.brokerValue, hr]

theorem brokerValue_of_closed {h : Heap} {v : Value} (hr : h.brokers.get? r = some (.closed v)) :
    h.brokerValue r = v := by
  rw [Heap.brokerValue, hr]

theorem get_modifyArena {h : Heap} {a : Ref .arena} {slot : Nat} {x : Arena} (v : Value)
    (hx : h.arenas.get? a = some x) (hfit : (h.arena a).admits slot) :
    ((h.modifyArena a (·.put slot v)).arena a).get slot = v := by
  have hput : (h.modifyArena a (·.put slot v)).arenas.get? a = some (x.put slot v) := by
    show (h.arenas.modify a _).get? a = _
    rw [Store.get?_modify_self, hx]
    rfl
  rw [value_of_arena hput]
  exact Arena.get_put (value_of_arena hx ▸ hfit) v

theorem cell (hb : Ledger.Balanced m.ledger) {b : Broker} (hr : m.heap.brokers.get? r = some b) :
    Cell host m r where
  live a slot := brokerValue_of_live
  closed v := brokerValue_of_closed
  read f w stop hd hop hq := by
    have hclosure : f.skip.closure = f.closure := rfl
    have hrun : Opcode.run host .getUpval w (m.modifyFrame Frame.skip) =
        setSlot (f.base + w.a.toNat) (m.heap.brokerValue r) (m.modifyFrame Frame.skip) := by
      show Instruction.getUpvalue w _ = _
      unfold Instruction.getUpvalue
      rw [bind_eq, upvalue_eq hd.frame?_skip, hclosure, hq]
      simp only [Step.bind, setRegister, bind_eq, Exec.base, Exec.read, base_eq hd.frame?_skip]
      rfl
    rw [hd.step_eq host stop hop (by decide)]
    rw [hrun]
    obtain ⟨hfull, h⟩ | ⟨h, hget⟩ := setSlot_cases (f.base + w.a.toNat) (m.heap.brokerValue r)
      (m.modifyFrame Frame.skip) <;> rw [h]
    · exact .inl ⟨hfull, _, rfl⟩
    · exact .inr ⟨_, rfl, hget⟩
  assign f w stop hd hop hq := by
    obtain ⟨hnone, -⟩ | ⟨q, hq', he⟩ := Exec.step_assign host stop hd hop
    · exact absurd (hnone.symm.trans hq) (Option.some_ne_none r).symm
    · obtain rfl : r = q := Option.some.inj (hq.symm.trans hq')
      rw [he]
      obtain ⟨a, slot, hlive, ⟨hfull, hs⟩ | ⟨hfit, hs⟩⟩ | ⟨hclosed, hs⟩ := Exec.setBroker_cases r
        (m.arena.get (f.base + w.a.toNat)) (m.modifyFrame Frame.skip) <;> rw [hs]
      · exact .inl ⟨a, slot, hlive, hfull, _, rfl⟩
      · obtain ⟨x, hx⟩ := arena_of_live hb hlive
        have hget := get_modifyArena (m.arena.get (f.base + w.a.toNat)) hx hfit
        let h := m.heap.modifyArena a (·.put slot (m.arena.get (f.base + w.a.toNat)))
        have hlive₁ : h.brokers.get? r = some (.live a slot) := hlive
        refine .inr ⟨_, rfl, (brokerValue_of_live hlive₁).trans hget, fun a' slot' hlive' => ⟨hlive', ?_⟩⟩
        cases hlive.symm.trans hlive'
        exact hget
      · refine .inr ⟨_, rfl, brokerValue_of_closed ?_, fun a slot hlive => absurd hlive (hclosed a slot)⟩
        show (m.heap.brokers.modify r _).get? r = _
        rw [Store.get?_modify_self, hr]
        rfl
  readField f w stop hd hop hq := by
    have hrun : Opcode.run host .getTabUp w (m.modifyFrame Frame.skip) =
        fieldOf w (m.heap.brokerValue r) (m.modifyFrame Frame.skip) := by
      show Instruction.getUpvalueField w _ = _
      unfold Instruction.getUpvalueField
      rw [bind_eq, upvalueValue_eq hd.frame?_skip hq]
      rfl
    rw [hd.step_eq host stop hop (by decide), hrun]
  assignField f w stop hd hop hq := by
    have hrun : Opcode.run host .setTabUp w (m.modifyFrame Frame.skip) =
        setFieldOf w (m.heap.brokerValue r) (m.modifyFrame Frame.skip) := by
      show Instruction.setUpvalueField w _ = _
      unfold Instruction.setUpvalueField
      rw [bind_eq, upvalueValue_eq hd.frame?_skip hq]
      rfl
    rw [hd.step_eq host stop hop (by decide), hrun]

/-- Closures share the broker of a register as long as nothing closes it. Until then its value is that of the slot, and
from then on the one it had, until another is assigned. -/
theorem captures_shared_then_frozen {run : Nat → Config} {n : Nat} (h₀ : Reachable host (run 0))
    (hrun : ∀ i, i < n → Leads host (run i) (run (i + 1))) :
    (∀ i p m below f w, i ≤ n → run i = .loop p m below → Due m f w → w.opcode? = some .closure →
      (¬m.Makeable f w ∧ ∃ e m', Exec.step host p.stop m = .raise e m') ∨
        ∃ m' child q f', Exec.step host p.stop m = .ret none m' ∧ Makes m f w m' child q f') ∧
    (∀ i j k k', i < j → j < n → Captures host k (run i) → Captures host k' (run j) → k'.arena = k.arena →
      k'.height = k.height → k'.slot = k.slot →
      (k'.broker = k.broker ↔ ∀ d, i < d → d < j → ¬(run d).Closes k ∧ ¬Gone k (run d))) ∧
    (∀ i r b, i ≤ n → (run i).machine.heap.brokers.get? r = some b → Cell host (run i).machine r) ∧
    ∀ i j r a slot, i < j → j ≤ n → (run i).machine.heap.brokers.get? r = some (.live a slot) →
      (run (i + 1)).machine.heap.brokers.get? r ≠ some (.live a slot) →
      (∀ d, i < d → d < j → ∀ v, ¬(run d).Stores r v) →
      (run j).machine.heap.brokers.get? r = some (.closed (((run i).machine.heap.arena a).get slot)) := by
  refine ⟨fun i p m below f w _ _ hd hop => Exec.closure_cases host p.stop hd hop,
    fun i j k k' hij hj hk hk' => broker_eq_iff h₀ hrun hij hj hk hk',
    fun i r b hi hr => cell (reachable_run h₀ hrun hi).ledger_balanced hr, ?_⟩
  intro i j r a slot hij hj hlive hclosed hkept
  have hi := Nat.lt_of_lt_of_le hij hj
  obtain h | ⟨h, -⟩ := live_next (reachable_run h₀ hrun (Nat.le_of_lt hi)) (hrun i hi) hlive
  · exact absurd h hclosed
  · exact closed_between h₀ hrun hj hij h hkept

/-- Captures its argument twice, closes it, and captures it again. -/
def recapture : Prototype where
  name := "outer"
  source := "outer"
  params := 1
  window := 3
  code := #[.abx .closure 1 0, .abx .closure 2 0, .abc .close 0 (.register 0) (.register 0),
    .abx .closure 1 0, .abc .ret 1 (.register 2) (.register 0)]
  children := [{ name := "inner", source := "outer", captures := #[⟨"x", true, 0⟩] }]

/-- It is about to make a closure that captures the first slot of its frame through a broker. -/
def capturing (host : Host) (w : Word) (q : Ref .closure) (b : Ref .broker) : Config → Bool
  | .loop p m _ =>
    let captured := match Exec.step host p.stop m with
      | .ret none m' => m'.arena.get (1 + w.a.toNat) = .closure q && (m'.heap.closure q).brokers[0]? = some b
      | _ => false
    !m.isCancelled m.fiber.token && m.fiber.arena = ⟨0⟩ && m.callDepth = 1 &&
      m.frame?.any fun f => f.word? = some w && f.base = 1 &&
        (f.prototype.children[0]?.bind fun child => child.captures[0]?) = some ⟨"x", true, 0⟩ && captured
  | _ => false

theorem captures_of_capturing {host : Host} {c : Config} {w : Word} {q : Ref .closure} {b : Ref .broker}
    (hop : w.opcode? = some .closure) (hbx : w.bx.toNat = 0) (h : c.capturing host w q b = true) :
    Captures host ⟨⟨0⟩, 0, 1, b⟩ c := by
  rw [capturing.eq_def] at h
  split at h
  · simp only [Bool.and_eq_true, Bool.not_eq_true', decide_eq_true_eq, Option.any_eq_true] at h
    obtain ⟨⟨⟨halive, harena⟩, hdepth⟩, f, hf, ⟨⟨hword, hbase⟩, hcapture⟩, hstep⟩ := h
    obtain ⟨child, hchild, hc⟩ := Option.bind_eq_some_iff.1 hcapture
    split at hstep
    · rename_i m' hs
      simp only [Bool.and_eq_true, decide_eq_true_eq] at hstep
      exact .intro ⟨hf, hword, halive⟩ hop (hbx ▸ hchild) hc rfl hs (hbase ▸ hstep.1) hstep.2 harena.symm hdepth
        hbase.symm
    · cases hstep
  · cases h

/-- The word that comes next does not assign to a captured variable. -/
def assignsNone : Config → Bool
  | .loop _ m _ => m.frame?.all fun f => f.word?.all fun w => w.opcode? ≠ some .setUpval
  | _ => true

theorem not_stores_of_assignsNone {c : Config} (h : c.assignsNone = true) (r : Ref .broker) (v : Value) :
    ¬c.Stores r v := by
  intro hv
  cases c with
  | loop p m below =>
    obtain ⟨f, w, hd, hop, -⟩ := hv
    simp only [assignsNone, hd.frame, hd.word, Option.all_some, decide_eq_true_eq] at h
    exact h hop
  | work g s below => exact hv
  | answer r m below => exact hv

/-- The first two closures share the argument; the third does not, and the first two have it as it was. -/
theorem captures_shared_then_frozen_recaptured :
    let host : Host := fun _ _ => .done []
    let run i := steps host i
      (ask host (.call (.closure ⟨0⟩) [.int 5]) ((bare ⟨4, 64, 8, 8⟩).load recapture).2 [])
    let k : Link := ⟨⟨0⟩, 0, 1, ⟨0⟩⟩
    (∀ d, 2 < d → d < 4 → ¬(run d).Closes k ∧ ¬Gone k (run d)) ∧
      (¬∀ d, 2 < d → d < 8 → ¬(run d).Closes k ∧ ¬Gone k (run d)) ∧
      (run 10).machine.heap.brokers.get? ⟨0⟩ = some (.closed (.int 5)) := by
  intro host run k
  have h₀ : Reachable host (run 0) := reachable_asked host _ [.load recapture] _ 0
  have hrun : ∀ i, i < 10 → Leads host (run i) (run (i + 1)) := by
    intro i hi
    have hsome : ∀ i < 10, (next host (run i)).isSome := by decide +kernel
    obtain ⟨c', hc'⟩ := Option.isSome_iff_exists.1 (hsome i hi)
    have hnext : run (i + 1) = c' := by
      show steps host (i + 1) _ = c'
      rw [steps_succ]
      show (next host (run i)).getD _ = c'
      rw [hc']
      rfl
    rw [hnext]
    exact .next hc'
  obtain ⟨-, hshared, -, hfrozen⟩ := captures_shared_then_frozen h₀ hrun
  have h₂ : Captures host k (run 2) :=
    captures_of_capturing (w := .abx .closure 1 0) (q := ⟨1⟩) (by decide) (by decide) (by decide +kernel)
  have h₄ : Captures host k (run 4) :=
    captures_of_capturing (w := .abx .closure 2 0) (q := ⟨2⟩) (by decide) (by decide) (by decide +kernel)
  have h₈ : Captures host ⟨⟨0⟩, 0, 1, ⟨1⟩⟩ (run 8) :=
    captures_of_capturing (w := .abx .closure 1 0) (q := ⟨3⟩) (by decide) (by decide) (by decide +kernel)
  refine ⟨(hshared 2 4 k k (by decide) (by decide) h₂ h₄ rfl rfl rfl).1 rfl, fun h => ?_, ?_⟩
  · have hbroker := (hshared 2 8 k ⟨⟨0⟩, 0, 1, ⟨1⟩⟩ (by decide) (by decide) h₂ h₈ rfl rfl rfl).2 h
    cases hbroker
  · have hnone : ∀ d < 10, (run d).assignsNone = true := by decide +kernel
    have hvalue : ((run 6).machine.heap.arena ⟨0⟩).get 1 = .int 5 := by decide +kernel
    rw [← hvalue]
    exact hfrozen 6 10 ⟨0⟩ ⟨0⟩ 1 (by decide) (by decide) (by decide +kernel) (by decide +kernel)
      fun d _ hd v => not_stores_of_assignsNone (hnone d hd) _ v

end Config
end RegisterMachine
