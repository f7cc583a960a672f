import RegisterMachine.Proofs.Homes
import RegisterMachine.Proofs.Tokens

/-! Cancellation over whole runs. Tokens are made and cancelled in order and never go back. A coroutine has
a token of its own from the start, and its fiber keeps it wherever it runs or waits; so the next
instruction of whatever runs in the place of a coroutine is due under the token of that coroutine. -/
namespace RegisterMachine

def Ref.label (a : Ref .arena) : Ref .token := ⟨a.index⟩

namespace Heap

def token? (h : Heap) (co : Ref .coroutine) : Option (Ref .token) :=
  (h.coroutine? co).map Coroutine.token

theorem token?_modify (h : Heap) {r : Ref .coroutine} {f : Coroutine → Coroutine}
    (hf : ∀ c, (f c).token = c.token) (q : Ref .coroutine) :
    (h.modifyCoroutine r f).token? q = h.token? q := by
  rw [token?, token?, coroutine?_modify]
  split
  · rw [Option.map_map]
    exact congrArg (Option.map · (h.coroutine? q)) (funext hf)
  · rfl

theorem tokens_closeBrokers (h : Heap) (rs : List (Ref .broker)) :
    (h.closeBrokers rs).tokens = h.tokens := by
  induction rs generalizing h with
  | nil => rfl
  | cons r rs ih => exact ih _

end Heap

namespace Machine

open Scene.Proceeds (fiber_leaving waiting_leaving)

variable {m m' : Machine}

section

variable (m : Machine) (co q : Ref .coroutine) (status : Status)

@[simp] theorem token?_setStatus : (m.setStatus co status).heap.token? q = m.heap.token? q :=
  m.heap.token?_modify (f := fun c => { c with status }) (fun _ => rfl) q

@[simp] theorem token?_park (parked : Option Fiber) :
    (m.park co parked).heap.token? q = m.heap.token? q :=
  m.heap.token?_modify (f := fun c => { c with parked }) (fun _ => rfl) q

@[simp] theorem token?_setActiveStatus : (m.setActiveStatus status).heap.token? q = m.heap.token? q := by
  unfold setActiveStatus
  split
  · exact token?_setStatus m _ q status
  · rfl

@[simp] theorem token?_leaving : m.leaving.heap.token? q = m.heap.token? q := by
  unfold leaving
  rw [token?_setActiveStatus, heap_switchBack]

@[simp] theorem token?_endClosing (token : Ref .token) (failure : Option Fault) :
    (m.endClosing co token failure).2.heap.token? q = m.heap.token? q := by
  have h := token?_setStatus (m.modifyHeap fun h => { h with tokens := h.tokens.cancel token }) co q .dead
  cases failure <;> exact h

@[simp] theorem token?_enterCoroutine (fiber : Fiber) :
    (m.enterCoroutine co fiber).heap.token? q = m.heap.token? q := by
  show (((m.park co none).setActiveStatus .normal).setStatus co .running).heap.token? q = _
  rw [token?_setStatus, token?_setActiveStatus, token?_park]

@[simp] theorem tokens_setActiveStatus : (m.setActiveStatus status).heap.tokens = m.heap.tokens := by
  unfold setActiveStatus
  split <;> rfl

@[simp] theorem tokens_leaving : m.leaving.heap.tokens = m.heap.tokens := by
  unfold leaving
  rw [tokens_setActiveStatus, heap_switchBack]

@[simp] theorem tokens_enterCoroutine (fiber : Fiber) :
    (m.enterCoroutine co fiber).heap.tokens = m.heap.tokens :=
  tokens_setActiveStatus (m.park co none) .normal

@[simp] theorem tokens_endClosing (token : Ref .token) (failure : Option Fault) :
    (m.endClosing co token failure).2.heap.tokens = m.heap.tokens.cancel token := by
  cases failure <;> rfl

@[simp] theorem rootToken_setActiveStatus : (m.setActiveStatus status).rootToken = m.rootToken := by
  unfold setActiveStatus
  split <;> rfl

@[simp] theorem rootToken_switchBack : m.switchBack.rootToken = m.rootToken := by
  unfold switchBack
  split <;> rfl

@[simp] theorem rootToken_leaving : m.leaving.rootToken = m.rootToken := by
  unfold leaving
  rw [rootToken_setActiveStatus, rootToken_switchBack]

@[simp] theorem rootToken_enterCoroutine (fiber : Fiber) :
    (m.enterCoroutine co fiber).rootToken = m.rootToken :=
  rootToken_setActiveStatus (m.park co none) .normal

@[simp] theorem rootToken_endClosing (token : Ref .token) (failure : Option Fault) :
    (m.endClosing co token failure).2.rootToken = m.rootToken := by
  cases failure <;> rfl

end

def Has (m : Machine) (f : Fiber) : Prop := ∃ g ∈ m.fibers, f.arena = g.arena ∧ f.token = g.token

theorem Has.running {f : Fiber} (ha : f.arena = m.fiber.arena) (ht : f.token = m.fiber.token) : m.Has f :=
  ⟨m.fiber, List.mem_cons_self, ha, ht⟩

theorem Has.waiting {f : Fiber} (h : f ∈ m.waiting) : m.Has f :=
  ⟨f, List.mem_cons_of_mem _ (List.mem_append_left _ h), rfl, rfl⟩

theorem Has.held {f g : Fiber} {co : Ref .coroutine} (h : m.heap.held co = some g)
    (ha : f.arena = g.arena) (ht : f.token = g.token) : m.Has f :=
  ⟨g, List.mem_cons_of_mem _ (List.mem_append_right _ (Heap.mem_parked_iff.2 ⟨co, h⟩)), ha, ht⟩

/-- Every fiber and every coroutine has the token that was made for it. -/
structure Labelled (m : Machine) : Prop where
  root : m.rootToken = Ref.label ⟨0⟩
  coroutine : ∀ co r, m.heap.token? co = some r → r = co.home.label
  fiber : ∀ f ∈ m.fibers, f.token = f.arena.label ∧ f.token.index < m.heap.tokens.items.size
  size : m.heap.tokens.items.size = m.heap.sizes.1 ∧ m.heap.sizes.1 = m.heap.sizes.2 + 1

namespace Labelled

/-- The fibers change places at most. -/
theorem carry (h : Labelled m) (hroot : m'.rootToken = m.rootToken)
    (htokens : m'.heap.tokens.items.size = m.heap.tokens.items.size)
    (hsizes : m'.heap.sizes = m.heap.sizes) (htoken : ∀ co, m'.heap.token? co = m.heap.token? co)
    (hfiber : m.Has m'.fiber) (hwaiting : ∀ f ∈ m'.waiting, m.Has f)
    (hheld : ∀ co f, m'.heap.held co = some f → m.Has f) : Labelled m' := by
  have has : ∀ f ∈ m'.fibers, m.Has f := by
    intro f hf
    obtain rfl | hf := List.mem_cons.1 hf
    · exact hfiber
    · obtain hf | hf := List.mem_append.1 hf
      · exact hwaiting f hf
      · obtain ⟨co, hco⟩ := Heap.mem_parked_iff.1 hf
        exact hheld co f hco
  refine ⟨hroot.trans h.root, fun co r hr => h.coroutine co r ((htoken co).symm.trans hr), ?_, ?_⟩
  · intro f hf
    obtain ⟨g, hg, ha, ht⟩ := has f hf
    rw [ha, ht, htokens]
    exact h.fiber g hg
  · rw [htokens, hsizes]
    exact h.size

/-- The fiber that waits takes the place of the running one, which may be parked. -/
theorem back {f : Fiber} {w : List Fiber} (h : Labelled m) (hw : m.waiting = f :: w)
    (hroot : m'.rootToken = m.rootToken)
    (htokens : m'.heap.tokens.items.size = m.heap.tokens.items.size)
    (hsizes : m'.heap.sizes = m.heap.sizes) (htoken : ∀ co, m'.heap.token? co = m.heap.token? co)
    (hfiber : m'.fiber = f) (hwaiting : m'.waiting = w)
    (hheld : ∀ co g, m'.heap.held co = some g → m.heap.held co = some g ∨ g = m.fiber) : Labelled m' := by
  refine h.carry hroot htokens hsizes htoken ?_ (fun g hg => ?_) fun co g hg => ?_
  · rw [hfiber]
    exact .waiting (hw ▸ List.mem_cons_self)
  · rw [hwaiting] at hg
    exact .waiting (hw ▸ List.mem_cons_of_mem f hg)
  · obtain hg | rfl := hheld co g hg
    · exact .held hg rfl rfl
    · exact .running rfl rfl

/-- Nothing happens to the coroutines, and the same fibers run and wait. -/
theorem still (h : Labelled m) (hc : m'.heap.coroutines = m.heap.coroutines)
    (ha : m'.heap.arenas.items.size = m.heap.arenas.items.size)
    (htokens : m'.heap.tokens.items.size = m.heap.tokens.items.size) (hroot : m'.rootToken = m.rootToken)
    (hfiber : m.Has m'.fiber) (hwaiting : m'.waiting = m.waiting) : Labelled m' := by
  have hget (co : Ref .coroutine) : m'.heap.coroutine? co = m.heap.coroutine? co := by
    rw [Heap.coroutine?, hc, Heap.coroutine?]
  refine h.carry hroot htokens ?_ (fun co => ?_) hfiber (fun f hf => ?_) fun co f hf => ?_
  · rw [Heap.sizes, ha, hc, Heap.sizes]
  · rw [Heap.token?, hget, Heap.token?]
  · rw [hwaiting] at hf
    exact .waiting hf
  · rw [Heap.held, hget] at hf
    exact .held hf rfl rfl

theorem create (h : Labelled m) (entry : Callee) : Labelled (m.newCoroutine entry).2 := by
  have htokens : (m.newCoroutine entry).2.heap.tokens.items.size = m.heap.tokens.items.size + 1 :=
    Array.size_push _
  have hsizes : (m.newCoroutine entry).2.heap.sizes = (m.heap.sizes.1 + 1, m.heap.sizes.2 + 1) :=
    Prod.ext (Array.size_push _) (Array.size_push _)
  have htoken (q : Ref .coroutine) : (m.newCoroutine entry).2.heap.token? q =
      if q.index = m.heap.sizes.2 then some ⟨m.heap.tokens.items.size⟩ else m.heap.token? q := by
    show Option.map _ (m.heap.coroutines.items.push _)[q.index]? = _
    rw [Array.getElem?_push, apply_ite (Option.map Coroutine.token)]
    rfl
  refine ⟨h.root, fun q r hr => ?_, fun f hf => ?_, ?_⟩
  · rw [htoken] at hr
    split at hr
    · rename_i last
      cases hr
      rw [h.size.1, h.size.2, ← last]
      rfl
    · exact h.coroutine q r hr
  · rw [htokens]
    have hfibers : (m.newCoroutine entry).2.fibers = m.fibers ++
        [{ arena := ⟨m.heap.arenas.items.size⟩, token := ⟨m.heap.tokens.items.size⟩,
           isCoroutine := true }] := by
      rw [fibers, parked_newCoroutine, fibers, ← List.append_assoc]
      rfl
    rw [hfibers, List.mem_append, List.mem_singleton] at hf
    obtain hf | rfl := hf
    · exact ⟨(h.fiber f hf).1, Nat.lt_succ_of_lt (h.fiber f hf).2⟩
    · exact ⟨congrArg Ref.mk h.size.1, Nat.lt_succ_self _⟩
  · rw [htokens, hsizes]
    exact ⟨congrArg Nat.succ h.size.1, congrArg Nat.succ h.size.2⟩

end Labelled

structure Tracked (ops : List TokenOp) (m : Machine) : Prop where
  made : Store.Made ops m.heap.tokens
  labelled : Labelled m

namespace Tracked

variable {ops : List TokenOp}

theorem same (h : Tracked ops m) (htokens : m'.heap.tokens = m.heap.tokens) (hm : Labelled m') :
    ∃ more, Tracked (ops ++ more) m' := by
  refine ⟨[], ?_, hm⟩
  rw [List.append_nil, htokens]
  exact h.made

theorem cancel (h : Tracked ops m) {r : Ref .token} (htokens : m'.heap.tokens = m.heap.tokens.cancel r)
    (hm : Labelled m') : ∃ more, Tracked (ops ++ more) m' := by
  by_cases hr : r.index < m.heap.tokens.items.size
  · refine ⟨[.cancel r], ?_, hm⟩
    rw [htokens]
    exact .snoc (.cancel r) h.made hr
  · refine h.same ?_ hm
    have habsent : m.heap.tokens.items[r.index]? = none := Array.getElem?_eq_none (Nat.le_of_not_lt hr)
    rw [htokens, Store.cancel, Store.modify]
    refine congrArg Store.mk (Array.ext_getElem? fun i => ?_)
    rw [Array.getElem?_modify]
    split
    · rename_i hi
      rw [← hi, habsent]
      rfl
    · rfl

theorem still (h : Tracked ops m) (hc : m'.heap.coroutines = m.heap.coroutines)
    (ha : m'.heap.arenas.items.size = m.heap.arenas.items.size) (htokens : m'.heap.tokens = m.heap.tokens)
    (hroot : m'.rootToken = m.rootToken) (hfiber : m.Has m'.fiber) (hwaiting : m'.waiting = m.waiting) :
    ∃ more, Tracked (ops ++ more) m' :=
  h.same htokens (h.labelled.still hc ha (by rw [htokens]) hroot hfiber hwaiting)

theorem quiet (h : Tracked ops m) (hq : Quiet m m') : ∃ more, Tracked (ops ++ more) m' := by
  have hfiber : m.Has m.fiber := .running rfl rfl
  cases hq with
  | write op _ => exact h.still rfl Array.size_modify rfl rfl hfiber rfl
  | top top => exact h.still rfl rfl rfl rfl (.running rfl rfl) rfl
  | assign v _ _ => exact h.still rfl Array.size_modify rfl rfl hfiber rfl
  | act a =>
    cases a with
    | newCoroutine entry =>
      have hparent := (h.labelled.fiber m.fiber List.mem_cons_self).2
      exact ⟨[.child m.fiber.token], .snoc (.child m.fiber.token) h.made hparent,
        h.labelled.create entry⟩
    | setCoroutineMetatable r metatable =>
      have hmodify : m.heap.modifyCoroutine r (fun c => { c with metatable }) =
        ((Action.setCoroutineMetatable r metatable).apply m).2.heap := rfl
      have hwaiting : ∀ f ∈ m.waiting, m.Has f := fun f hf => .waiting hf
      refine h.same rfl (h.labelled.carry rfl rfl ?_ (fun co => ?_) hfiber hwaiting fun co f hf => ?_)
      · rw [← hmodify, Heap.sizes_modify]
      · rw [← hmodify]
        exact m.heap.token?_modify (f := fun c => { c with metatable }) (fun _ => rfl) co
      · rw [← hmodify, m.heap.held_modify (f := fun c => { c with metatable }) fun _ => rfl] at hf
        exact .held hf rfl rfl
    | load p =>
      have hl := Loaded.load m p
      exact h.still hl.coroutines (congrArg (·.items.size) hl.arenas) hl.tokens rfl hfiber rfl
    | cancel r =>
      exact h.cancel rfl (h.labelled.still rfl rfl Array.size_modify rfl hfiber rfl)
    | _ => exact h.still rfl rfl rfl rfl hfiber rfl
  | _ => exact h.still rfl rfl rfl rfl hfiber rfl

theorem change (h : Tracked ops m) (hc : Change m m') : ∃ more, Tracked (ops ++ more) m' := by
  have hclose (rs : List (Ref .broker)) (h : Heap) :
      (h.closeBrokers rs).tokens = h.tokens ∧ (h.closeBrokers rs).arenas.items.size = h.arenas.items.size :=
    ⟨Heap.tokens_closeBrokers h rs, by rw [arenas_closeBrokers]⟩
  have hfiber : m.Has m.fiber := .running rfl rfl
  cases hc with
  | quiet hq => exact h.quiet hq
  | touch ht =>
    cases ht with
    | part start _ =>
      exact h.still (coroutines_closeBrokers _ _) (hclose _ _).2 (hclose _ _).1 rfl (.running rfl rfl) rfl
    | _ => exact h.still rfl rfl rfl rfl (.running rfl rfl) rfl
  | enter he =>
    cases he
    exact h.still rfl rfl rfl rfl (.running rfl rfl) rfl
  | drop hd =>
    cases hd
    exact h.still (coroutines_closeBrokers _ _) (hclose _ _).2 (hclose _ _).1 rfl (.running rfl rfl) rfl
  | await p _ => exact h.still rfl rfl rfl rfl (.running rfl rfl) rfl

theorem shift {l l' : List (Ref .coroutine)} (h : Tracked ops m) (hs : Shift l m l' m') :
    ∃ more, Tracked (ops ++ more) m' := by
  have hlabelled := h.labelled
  have hfiber : m.Has m.fiber := .running rfl rfl
  have hwaiting : ∀ f ∈ m.waiting, m.Has f := fun f hf => .waiting hf
  have hheld : ∀ co f, m.heap.held co = some f → m.Has f := fun co f hf => .held hf rfl rfl
  have hparked : ∀ co q f, (m.park co none).heap.held q = some f → m.heap.held q = some f :=
    fun co q f hf => ((held_park m co q hf).resolve_left fun h => nomatch h.2).2
  have hcancelled (r : Ref .token) : (m.heap.tokens.cancel r).items.size = m.heap.tokens.items.size :=
    Array.size_modify
  cases hs with
  | enterCall => exact h.still rfl rfl rfl rfl (.running rfl rfl) rfl
  | leaveCall top => exact h.still rfl rfl rfl rfl (.running rfl rfl) rfl
  | @enter _ _ co c fiber hc _ hp =>
    refine h.same (by simp) (hlabelled.carry (by simp) (by simp) (by simp) (by simp) ?_ ?_ fun q f hf => ?_)
    · rw [fiber_enterCoroutine]
      exact .held ((Heap.held_eq_parked hc).trans hp) rfl rfl
    · rw [waiting_enterCoroutine]
      exact List.forall_mem_cons.2 ⟨hfiber, hwaiting⟩
    · rw [held_enterCoroutine] at hf
      exact hheld q f (hparked co q f hf)
  | @finish _ _ co rest f w _ hw _ =>
    refine h.same (tokens_leaving m) (hlabelled.back hw (rootToken_leaving m) ?_ (by simp) (by simp)
      (fiber_leaving hw) (waiting_leaving hw) fun q g hg => .inl ?_)
    · exact congrArg (fun st => st.items.size) (tokens_leaving m)
    · simpa using hg
  | @yield _ _ co rest f w _ hw _ =>
    refine h.same (tokens_leaving m) (hlabelled.back hw (rootToken_leaving m) ?_ (by simp) (by simp)
      (fiber_leaving hw) (waiting_leaving hw) fun q g hg => ?_)
    · exact congrArg (fun st => st.items.size) (tokens_leaving m)
    · rw [held_setStatus] at hg
      obtain ⟨-, hg⟩ | ⟨-, hg⟩ := held_park _ co q hg
      · exact .inr (Option.some.inj hg).symm
      · exact .inl (by simpa using hg)
  | @refuse _ _ co c _ _ =>
    refine h.same rfl (hlabelled.carry rfl rfl (by simp) (by simp) hfiber hwaiting fun q f hf => ?_)
    rw [held_setStatus] at hf
    exact hheld q f hf
  | @close _ _ co c fiber hc _ hp =>
    have hswitch : ((m.park co none).switchTo fiber).heap = (m.park co none).heap := rfl
    refine h.same rfl (hlabelled.carry rfl rfl (by simp [hswitch]) (by simp [hswitch]) ?_ ?_
      fun q f hf => ?_)
    · exact .held ((Heap.held_eq_parked hc).trans hp) rfl rfl
    · exact List.forall_mem_cons.2 ⟨hfiber, hwaiting⟩
    · exact hheld q f (hparked co q f hf)
  | @closed l _ co f w token failure hw _ =>
    have hback : m.switchBack.fiber = f ∧ m.switchBack.waiting = w := by simp [switchBack, hw]
    refine h.cancel (r := token) (by simp) (hlabelled.back hw (by simp) ?_ (by simp) (by simp) ?_ ?_
      fun q g hg => ?_)
    · simp [hcancelled]
    · cases failure <;> exact hback.1
    · cases failure <;> exact hback.2
    · exact .inl (by simpa using hg)
  | @discard _ _ co c token _ _ _ =>
    refine h.cancel (r := token) (by simp; rfl) (hlabelled.carry rfl ?_ (by simp) (by simp) hfiber hwaiting
      fun q f hf => ?_)
    · exact hcancelled token
    · rw [held_endClosing] at hf
      exact hheld q f (hparked co q f hf)

theorem move {l l' : List (Ref .coroutine)} (h : Tracked ops m) (hm : Config.Move (l, m) (l', m')) :
    ∃ more, Tracked (ops ++ more) m' := by
  cases hm with
  | change hc => exact h.change hc
  | shift hs => exact h.shift hs
  | watch _ _ _ _ _ _ => exact h.still rfl rfl rfl rfl (.running rfl rfl) rfl

theorem moves {s s' : List (Ref .coroutine) × Machine} (h : Tracked ops s.2)
    (hm : Config.Moves s s') : ∃ more, Tracked (ops ++ more) s'.2 := by
  induction hm with
  | refl => exact ⟨[], by rwa [List.append_nil]⟩
  | tail _ hm ih =>
    obtain ⟨more, ih⟩ := ih
    obtain ⟨later, hlater⟩ := ih.move hm
    exact ⟨more ++ later, by rwa [← List.append_assoc]⟩

end Tracked

theorem tracked_bare (limits : Limits) : Tracked [.new] (bare limits) where
  made := .snoc .new .nil trivial
  labelled := by
    refine ⟨rfl, ?_, ?_, rfl, rfl⟩
    · exact fun _ _ h => nomatch h
    · intro f hf
      obtain rfl := List.mem_singleton.1 hf
      exact ⟨rfl, Nat.zero_lt_one⟩

def unitToken? (m : Machine) : Option (Ref .coroutine) → Option (Ref .token)
  | none => some m.rootToken
  | some co => m.heap.token? co

theorem unitToken?_of_housed {s : Scene} (h : s.Housed) (hl : s.machine.Labelled) :
    s.machine.unitToken? s.hosts.head? = some s.machine.fiber.token := by
  have ha := h.arenas
  have hfiber := (hl.fiber s.machine.fiber List.mem_cons_self).1
  cases hs : s.hosts with
  | nil =>
    rw [hs, List.map_cons, List.map_nil, List.nil_append, List.cons.injEq] at ha
    rw [hfiber, ha.1]
    exact congrArg some hl.root
  | cons co rest =>
    rw [hs, List.map_cons, List.map_cons, List.cons_append, List.cons.injEq] at ha
    have hpresent := h.present co (hs ▸ List.mem_cons_self)
    have hget : s.machine.heap.coroutine? co = some _ := Array.getElem?_eq_getElem hpresent
    have htoken := (congrArg (Option.map Coroutine.token) hget).trans rfl
    rw [hfiber, ha.1, ← hl.coroutine co _ htoken]
    exact htoken

theorem step_of_isCancelled (host : Host) (stop : Nat) (h : m.isCancelled m.fiber.token = true) :
    Exec.step host stop m = .raise .cancelled m := by
  unfold Exec.step
  rw [Exec.bind_eq]
  simp only [Exec.read, Step.bind, h, if_true]
  rfl

end Machine

namespace Config

open Machine

variable {host : Host} {c c' : Config}

/-- In whose place the running fiber is: a coroutine, or the program. -/
def unit? (c : Config) : Option (Ref .coroutine) := c.hosts.head?

theorem Reachable.tracked (hc : Reachable host c) : ∃ ops, Tracked ops c.machine := by
  obtain ⟨limits, hl⟩ := hc
  have hmoves := Reachable.moves ⟨limits, .refl⟩ hl
  obtain ⟨more, h⟩ := Tracked.moves (s := ([], bare limits)) (tracked_bare limits) hmoves
  exact ⟨_, h⟩

/-- A token counts as cancelled exactly when it or one above it was cancelled. From then on nothing is executed for it,
and no coroutine with such a token can be resumed. -/
theorem cancellation_final :
    (∀ ops st, Store.Made ops st → ∀ r, st.isCancelled r = true ↔
      ∃ a, Under (TokenOp.lineage ops) r a ∧ .cancel a ∈ ops) ∧
    ∀ (host : Host) (c c' : Config) (t : Ref .token), Reachable host c → LeadsTo host c c' →
      (∃ ops more, Store.Made ops c.machine.heap.tokens ∧
        Store.Made (ops ++ more) c'.machine.heap.tokens) ∧
      (c.machine.isCancelled t = true →
        (∀ p m below, c' = .loop p m below → ∃ r, m.unitToken? c'.unit? = some r ∧
          (Under m.heap.tokens.parents r t →
            next host c' = some (.work (.run p true) (.raise .cancelled m) below))) ∧
        ∀ co k, c'.machine.heap.coroutine? co = some k → k.status = .suspended →
          Under c'.machine.heap.tokens.parents k.token t →
          IsDead (c'.machine.setStatus co .dead) co ∧ ∀ time args,
            serve host (time + 1) (.resume co args) c'.machine =
              some (.error .cancelled, c'.machine.setStatus co .dead)) := by
  refine ⟨fun ops st h => h.isCancelled_iff, fun host c c' t hc hl => ?_⟩
  obtain ⟨ops, h⟩ := hc.tracked
  obtain ⟨more, h'⟩ := h.moves (hc.moves hl)
  refine ⟨⟨ops, more, h.made, h'.made⟩, fun hcancelled => ⟨?_, ?_⟩⟩
  · rintro p m below rfl
    have hunit := unitToken?_of_housed (hc.trans hl).housed h'.labelled
    refine ⟨m.fiber.token, hunit, fun hunder => ?_⟩
    have hstep := step_of_isCancelled host p.stop (h.made.isCancelled_of_under h'.made hcancelled hunder)
    exact congrArg (fun s => some (Config.work (.run p true) s below)) hstep
  · intro co k hk hst hunder
    have hfound : c'.machine.isCancelled k.token = true :=
      h.made.isCancelled_of_under h'.made hcancelled hunder
    refine ⟨⟨{ k with status := .dead }, ?_, rfl⟩, fun time args => ?_⟩
    · rw [coroutine?_setStatus, if_pos rfl, hk]
      rfl
    · simp only [serve, resume, hk, hst, hfound, if_true]

/-- A machine with a closure and a coroutine that has not started, whose root token is cancelled. -/
def stopped : Machine :=
  let m := ((bare ⟨4, 64, 8, 8⟩).load { name := "main", source := "main" }).2
  ((Action.cancel ⟨0⟩).apply ((Action.newCoroutine (.closure ⟨0⟩)).apply m).2).2

/-- The closure is called, and the coroutine is under the root. -/
theorem cancellation_final_root :
    let host : Host := fun _ _ => .done []
    let c' := steps host 2 (ask host (.call (.closure ⟨0⟩) []) stopped [])
    (∃ p m below, c' = .loop p m below ∧
      next host c' = some (.work (.run p true) (.raise .cancelled m) below)) ∧
    serve host 1 (.resume ⟨0⟩ []) c'.machine = some (.error .cancelled, c'.machine.setStatus ⟨0⟩ .dead) := by
  intro host c'
  have hc : Reachable host (.answer (.ok {}) stopped []) :=
    reachable_acted host _ [.load { name := "main", source := "main" }, .newCoroutine (.closure ⟨0⟩), .cancel ⟨0⟩]
  have hl : LeadsTo host (.answer (.ok {}) stopped []) c' := (leadsTo_of_runs (runs_steps 2 _)).head (.ask _)
  obtain ⟨p, m, below, hloop⟩ : ∃ p m below, c' = .loop p m below := ⟨_, _, _, rfl⟩
  obtain ⟨-, hfinal⟩ := cancellation_final.2 host _ c' ⟨0⟩ hc hl
  obtain ⟨hrun, hresume⟩ := hfinal (by decide +kernel)
  have hunit : c'.machine.unitToken? c'.unit? = some ⟨0⟩ := by decide +kernel
  have hchild : c'.machine.heap.tokens.parents[1]? = some (some ⟨0⟩) := by decide +kernel
  have hco : (c'.machine.heap.coroutine? ⟨0⟩).map (fun k => (k.status, k.token)) =
    some (.suspended, ⟨1⟩) := by decide +kernel
  refine ⟨⟨p, m, below, hloop, ?_⟩, ?_⟩
  · obtain ⟨r, hr, hnext⟩ := hrun p m below hloop
    have hmachine : c'.machine = m := congrArg Config.machine hloop
    rw [hmachine, hr] at hunit
    obtain rfl : r = ⟨0⟩ := Option.some.inj hunit
    exact hnext .refl
  · obtain ⟨k, hk, he⟩ := Option.map_eq_some_iff.1 hco
    obtain ⟨hst, htoken⟩ := Prod.mk.inj he
    have hunder : Under c'.machine.heap.tokens.parents k.token ⟨0⟩ := by
      rw [htoken]
      exact .single hchild
    exact (hresume ⟨0⟩ k hk hst hunder).2 0 []

end Config
end RegisterMachine
