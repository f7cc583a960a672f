import RegisterMachine.Proofs.Chains
import RegisterMachine.Proofs.Placements

/-! Chains of callees. A value that is no function has its handler called in its place, with the value in front of
the arguments, and so on up to a function. The values on the way are laid out in the slots of the call, the last one
first; the slots below it are not touched. -/
namespace RegisterMachine

open Machine Exec

namespace Heap

/-- A callee that is no function hands the call on to its handler. -/
structure CalledThrough (h : Heap) (v : Value) : Prop where
  noFunction : v.callee? = none
  handled : h.callHandler v ≠ .nil

/-- The first values of a chain of callees, the last one first. -/
def passed (h : Heap) (v : Value) (n : Nat) : List Value := ((List.range n).map (h.link "__call" v)).reverse

/-- The end of a chain of callees behind a number of values: a function, a value that cannot be called, or none
within the bound. -/
inductive CallsTo (h : Heap) (v : Value) : Nat → Except Fault Callee → Prop
  | function {n : Nat} {callee : Callee} : n < maxCallLinks → h.Along "__call" h.CalledThrough v n →
      (h.link "__call" v n).callee? = some callee → CallsTo h v n (.ok callee)
  | bare {n : Nat} : n < maxCallLinks → h.Along "__call" h.CalledThrough v n →
      (h.link "__call" v n).callee? = none → h.callHandler (h.link "__call" v n) = .nil →
      CallsTo h v n (.error (.notCallable (h.link "__call" v n).typeName))
  | endless : h.Along "__call" h.CalledThrough v maxCallLinks →
      CallsTo h v maxCallLinks (.error (.runtime (.chainTooLong "__call")))

variable {h h' : Heap} {v : Value} {n : Nat} {r : Except Fault Callee}

theorem passed_succ : h.passed v (n + 1) = h.link "__call" v n :: h.passed v n := by
  simp only [passed, List.range_succ, List.map_append, List.reverse_append, List.map_singleton,
    List.reverse_singleton, List.singleton_append]

theorem length_passed_append (args : List Value) : (h.passed v n ++ args).length = args.length + n := by
  rw [passed, List.length_append, List.length_reverse, List.length_map, List.length_range, Nat.add_comm]

theorem callsTo_total (h : Heap) (v : Value) : ∃ n r, h.CallsTo v n r := by
  obtain along | ⟨n, hn, along, hlast⟩ := h.along_or_exists "__call" h.CalledThrough v maxCallLinks
  · exact ⟨_, _, .endless along⟩
  cases hc : (h.link "__call" v n).callee? with
  | some callee => exact ⟨n, _, .function hn along hc⟩
  | none =>
    by_cases hnil : h.callHandler (h.link "__call" v n) = .nil
    · exact ⟨n, _, .bare hn along hc hnil⟩
    · exact absurd ⟨hc, hnil⟩ hlast

theorem CallsTo.along (hr : h.CallsTo v n r) : h.Along "__call" h.CalledThrough v n := by
  cases hr <;> assumption

theorem CallsTo.le (hr : h.CallsTo v n r) : n ≤ maxCallLinks := by
  cases hr with
  | function hn | bare hn => exact Nat.le_of_lt hn
  | endless => exact Nat.le_refl _

theorem passed_succ' : h.passed v (n + 1) = h.passed (h.callHandler v) n ++ [v] := by
  have hlinks : h.link "__call" v ∘ Nat.succ = h.link "__call" (h.callHandler v) :=
    funext fun _ => Function.iterate_succ_apply ..
  rw [passed, List.range_succ_eq_map, List.map_cons, List.map_map, hlinks, List.reverse_cons]
  rfl

/-- The values that belong in front of the arguments are those in front of the end of the chain. -/
theorem callsTo_of_reaches {objects : List Value} {callee : Callee} (hr : v.Reaches h.callHandler objects callee)
    (hl : objects.length < maxCallLinks) :
    h.CallsTo v objects.length (.ok callee) ∧ h.passed v objects.length = objects := by
  suffices hchain : h.Along "__call" h.CalledThrough v objects.length ∧
      (h.link "__call" v objects.length).callee? = some callee ∧ h.passed v objects.length = objects from
    ⟨.function hl hchain.1 hchain.2.1, hchain.2.2⟩
  clear hl
  induction hr with
  | function hc => exact ⟨fun i hi => absurd hi (Nat.not_lt_zero i), hc, rfl⟩
  | @handler v objects callee hc hne _ ih =>
    obtain ⟨along, hcallee, hpassed⟩ := ih
    rw [List.length_append, List.length_singleton]
    refine ⟨fun i hi => ?_, hcallee, by rw [passed_succ', hpassed]⟩
    cases i with
    | zero => exact ⟨hc, hne⟩
    | succ i => exact along i (Nat.lt_of_succ_lt_succ hi)

theorem link_congr (hm : h'.metamethod = h.metamethod) : h'.link = h.link := by
  funext event w k
  rw [link, link, hm]

theorem CallsTo.congr (hm : h'.metamethod = h.metamethod) (hr : h.CallsTo v n r) : h'.CallsTo v n r := by
  have hlink := link_congr hm
  have hhandler : h'.callHandler = h.callHandler := funext fun w => congrFun (congrFun hm w) "__call"
  have through (w : Value) (hw : h.CalledThrough w) : h'.CalledThrough w := ⟨hw.noFunction, hhandler ▸ hw.handled⟩
  have halong {k : Nat} (along : h.Along "__call" h.CalledThrough v k) : h'.Along "__call" h'.CalledThrough v k :=
    fun i hi => through _ (hlink ▸ along i hi)
  cases hr with
  | function hn along hc => exact .function hn (halong along) (hlink ▸ hc)
  | bare hn along hc hnil =>
    rw [← hlink] at hc hnil ⊢
    exact .bare hn (halong along) hc (hhandler ▸ hnil)
  | endless along => exact .endless (halong along)

end Heap

namespace Exec

variable {m m' : Machine} {v : Value} {start n : Nat} {args : List Value} {r : Except Fault Callee}

theorem OnlyArenas.metamethod (h : OnlyArenas m m') : m'.heap.metamethod = m.heap.metamethod := by
  rw [h]
  rfl

theorem Laid.enterCall (laid : Laid start v args m m') : Laid start v args m.enterCall m'.enterCall where
  callee := laid.callee
  args := laid.args
  below := laid.below
  room := laid.room
  only := by
    have honly := laid.only
    unfold OnlyArenas at honly ⊢
    rw [honly]
    rfl

/-- There is room for the values on the way to the end of a chain. -/
def Fits (start count n : Nat) (m : Machine) : Prop := n = 0 ∨ m.arena.admits (start + count + n) = true

/-- The links in front of the end of a chain are taken, and what it leads to is laid out with the values on the
way. By induction on the links, the last one of which is taken last. -/
theorem resolveAlong_of_along (links : Nat) (laid : Laid start v args m m)
    (along : m.heap.Along "__call" m.heap.CalledThrough v n) :
    (¬Fits start args.length n m ∧ Overflows start (resolveAlong (links + n) start args.length m) m) ∨
    Fits start args.length n m ∧ ∃ m', Laid start (m.heap.link "__call" v n) (m.heap.passed v n ++ args) m m' ∧
      resolveAlong (links + n) start args.length m = resolveAlong links start (args.length + n) m' := by
  induction n generalizing links with
  | zero => exact .inr ⟨.inl rfl, m, laid, rfl⟩
  | succ n ih =>
    obtain ⟨front, through⟩ := along.of_succ
    have hlinks : links + (n + 1) = links + 1 + n := by omega
    rw [hlinks]
    obtain ⟨hfull, h⟩ | ⟨-, m₁, laid₁, h₁⟩ := ih (links + 1) front
    · refine .inl ⟨fun hfits => hfull ?_, h⟩
      exact .inr (Arena.admits_of_le (hfits.resolve_left (Nat.succ_ne_zero n)) (by omega))
    have hm := laid₁.only.metamethod
    have hhandler : m₁.heap.callHandler = m.heap.callHandler := funext fun w => congrFun (congrFun hm w) "__call"
    have hargs := laid₁.args
    rw [Heap.length_passed_append] at hargs
    have hstep := resolveAlong_handler links (args.length + n) laid₁.callee through.noFunction
      (hhandler ▸ through.handled)
    have hlast : start + 1 + (args.length + n) = start + args.length + (n + 1) := by omega
    rw [h₁, hstep, hargs, hhandler, bind_eq]
    obtain ⟨hfull, h₂⟩ | ⟨hroom, m₂, h₂, laid₂⟩ := displace_cases start
      (m.heap.callHandler (m.heap.link "__call" v n)) (m.heap.link "__call" v n) (m.heap.passed v n ++ args) m₁
    · refine .inl ⟨fun hfits => hfull ?_, laid₁.overflows (h₂.bind _)⟩
      rw [Heap.length_passed_append, hlast]
      exact (laid₁.room _).2 (hfits.resolve_left (Nat.succ_ne_zero n))
    · rw [Heap.length_passed_append, hlast] at hroom
      refine .inr ⟨.inr ((laid₁.room _).1 hroom), m₂, ?_, by rw [h₂]; rfl⟩
      rw [Heap.link_succ, Heap.passed_succ]
      exact laid₁.trans laid₂

/-- A value that cannot be called is refused. -/
theorem resolveAlong_bare (links count : Nat) (hv : m.arena.get start = v) (hc : v.callee? = none)
    (hnil : m.heap.callHandler v = .nil) :
    resolveAlong (links + 1) start count m = .raise (.notCallable v.typeName) m := by
  have hhandler : m.heap.metamethod v "__call" = .nil := hnil
  simp only [resolveAlong, bind_eq, slot, read, Step.bind, hv, hc, hhandler]
  rfl

/-- What finding the function gives once the call is laid out. -/
def found (count : Nat) : Except Fault Callee → Machine → Step (Callee × Nat)
  | .ok callee, m => .ret (callee, count) m
  | .error f, m => .raise f m

/-- The links that are left at the end of a chain are enough to see that it ends there. -/
theorem resolveAlong_last (count : Nat) (hr : m.heap.CallsTo v n r)
    (hlast : m.arena.get start = m.heap.link "__call" v n) :
    resolveAlong (maxCallLinks - n) start count m = found count r m := by
  cases hr with
  | function hn along hc =>
    obtain ⟨links, hlinks⟩ := Nat.exists_eq_succ_of_ne_zero (Nat.sub_ne_zero_of_lt hn)
    rw [hlinks]
    exact resolveAlong_callee links count (hlast ▸ hc)
  | bare hn along hc hnil =>
    obtain ⟨links, hlinks⟩ := Nat.exists_eq_succ_of_ne_zero (Nat.sub_ne_zero_of_lt hn)
    rw [hlinks]
    exact resolveAlong_bare links count hlast hc hnil
  | endless along =>
    rw [Nat.sub_self]
    rfl

theorem resolve_of_callsTo (laid : Laid start v args m m) (hr : m.heap.CallsTo v n r) :
    (¬Fits start args.length n m ∧ Overflows start (resolve start args.length m) m) ∨
    Fits start args.length n m ∧ ∃ m', Laid start (m.heap.link "__call" v n) (m.heap.passed v n ++ args) m m' ∧
      resolve start args.length m = found (args.length + n) r m' := by
  have hlinks : resolve start args.length = resolveAlong (maxCallLinks - n + n) start args.length :=
    congrArg (resolveAlong · start args.length) (Nat.sub_add_cancel hr.le).symm
  rw [hlinks]
  obtain h | ⟨hfits, m', laid', h⟩ := resolveAlong_of_along (maxCallLinks - n) laid hr.along
  · exact .inl h
  · have hm := laid'.only.metamethod
    have hlast : m'.arena.get start = m'.heap.link "__call" v n := laid'.callee.trans (by rw [Heap.link_congr hm])
    exact .inr ⟨hfits, m', laid', h.trans (resolveAlong_last _ (hr.congr hm) hlast)⟩

variable {host : Host} {wanted : Option Nat}

/-- How a call goes on that is laid out: what is done after a fault, with the run of a native function, and with a
new frame, is left open. -/
inductive Proceeds {α : Type} (host : Host) (start : Nat) (wanted : Option Nat) (args : List Value) (m : Machine)
    (raise : Fault → Machine → α) (run : Step (List Value) → α) (enter : Machine → α) : Except Fault Callee → α → Prop
  | refused {f : Fault} : Proceeds host start wanted args m raise run enter (.error f) (raise f m)
  | native {q : Ref .native} :
      Proceeds host start wanted args m raise run enter (.ok (.native q)) (run (invokeNative host q args m))
  | closure {q : Ref .closure} {f : Frame} {m' : Machine} : m'.frame? = some f → f.closure = m.heap.closure q →
      f.target = (start, wanted) → f.Receives args m.arena m'.arena →
      Proceeds host start wanted args m raise run enter (.ok (.closure q)) (enter m')
  | full {q : Ref .closure} {m' : Machine} : ¬RoomFor q start m →
      Proceeds host start wanted args m raise run enter (.ok (.closure q)) (raise .stackOverflow m')

theorem Proceeds.map {α β : Type} {raise : Fault → Machine → α} {run : Step (List Value) → α} {enter : Machine → α}
    {raise' : Fault → Machine → β} {run' : Step (List Value) → β} {enter' : Machine → β} {a : α} (φ : α → β)
    (h : Proceeds host start wanted args m raise run enter r a)
    (hraise : ∀ f m, r = .error f ∨ f = .stackOverflow → φ (raise f m) = raise' f m)
    (hrun : ∀ s, φ (run s) = run' s) (henter : ∀ m, φ (enter m) = enter' m) :
    Proceeds host start wanted args m raise' run' enter' r (φ a) := by
  cases h with
  | refused =>
    rw [hraise _ _ (.inl rfl)]
    exact .refused
  | native =>
    rw [hrun]
    exact .native
  | closure hframe hclosure htarget hreceives =>
    rw [henter]
    exact .closure hframe hclosure htarget hreceives
  | full hfull =>
    rw [hraise _ _ (.inr rfl)]
    exact .full hfull

theorem begin_of_callsTo (host : Host) (wanted : Option Nat) (laid : Laid start v args m m)
    (hr : m.heap.CallsTo v n r) :
    (¬Fits start args.length n m ∧ Overflows start (begin host start args.length wanted m) m) ∨
    Fits start args.length n m ∧ ∃ m', Laid start (m.heap.link "__call" v n) (m.heap.passed v n ++ args) m m' ∧
      Proceeds host start wanted (m.heap.passed v n ++ args) m' .raise (·.bind fun vs => .ret (some vs)) (.ret none) r
        (begin host start args.length wanted m) := by
  rw [begin, bind_eq]
  obtain ⟨hfull, h⟩ | ⟨hfits, m', laid', h⟩ := resolve_of_callsTo laid hr
  · exact .inl ⟨hfull, h.bind _⟩
  refine .inr ⟨hfits, m', laid', ?_⟩
  have hargs := laid'.args
  rw [Heap.length_passed_append] at hargs
  rw [h]
  obtain f | q | q := r
  · exact .refused
  · show Proceeds host start wanted _ m' .raise _ _ _
      ((pushFrame q start (args.length + n) wanted >>= fun _ => pure none) m')
    rw [bind_eq]
    obtain ⟨hfull, m₁, h₁⟩ | ⟨m₁, f, h₁, hframe, hclosure, htarget, hreceives⟩ :=
      pushFrame_receives q start (args.length + n) wanted m' <;> rw [h₁]
    · exact .full hfull
    · rw [hargs] at hreceives
      exact .closure hframe hclosure htarget hreceives
  · show Proceeds host start wanted _ m' .raise _ _ _
      ((invokeNative host q (m'.arena.readRange (start + 1) (args.length + n)) >>= fun vs => pure (some vs)) m')
    rw [hargs, bind_eq]
    exact .native

/-- The end of a call by an instruction: a yield leaves it waiting. -/
def settle (start : Nat) (wanted : Option Nat) (s : Step Unit) : Step Unit :=
  s.handle fun result m => match result with
    | .ok () => .ret () m
    | .error f => callFault start wanted f m

/-- The results of a native function are placed. -/
def conclude (start : Nat) (wanted : Option Nat) (s : Step (List Value)) : Step Unit :=
  settle start wanted (s.bind (placeResults start wanted))

/-- What an instruction does when its call has begun. -/
def proceed (start : Nat) (wanted : Option Nat) (s : Step (Option (List Value))) : Step Unit :=
  settle start wanted (s.bind fun results m => match results with
    | some vs => placeResults start wanted vs m
    | none => .ret () m)

theorem callAt_proceed (host : Host) (start count : Nat) (wanted : Option Nat) (m : Machine) :
    callAt host start count wanted m = proceed start wanted (begin host start count wanted m) := by
  rw [callAt_eq, callOutcome, bind_eq, proceed, settle]
  congr 2
  funext results m
  cases results <;> rfl

theorem proceed_native (start : Nat) (wanted : Option Nat) (s : Step (List Value)) :
    proceed start wanted (s.bind fun vs => .ret (some vs)) = conclude start wanted s := by
  rw [proceed, Step.bind_assoc]
  rfl

theorem callAt_of_callsTo (host : Host) (wanted : Option Nat) (laid : Laid start v args m m)
    (hr : m.heap.CallsTo v n r) :
    (¬Fits start args.length n m ∧ Overflows start (callAt host start args.length wanted m) m) ∨
    Fits start args.length n m ∧ ∃ m', Laid start (m.heap.link "__call" v n) (m.heap.passed v n ++ args) m m' ∧
      Proceeds host start wanted (m.heap.passed v n ++ args) m' .raise (conclude start wanted) (.ret ()) r
        (callAt host start args.length wanted m) := by
  rw [callAt_proceed]
  obtain ⟨hfull, m', h, hbelow⟩ | ⟨hfits, m', laid', h⟩ := begin_of_callsTo host wanted laid hr
  · exact .inl ⟨hfull, m', by rw [h]; rfl, hbelow⟩
  · refine .inr ⟨hfits, m', laid', h.map _ (fun f m hf => ?_) (proceed_native start wanted) fun _ => rfl⟩
    -- neither the end of a chain nor an overflow is a yield
    obtain rfl | rfl := hf
    · cases hr <;> rfl
    · rfl

end Exec

namespace Machine

variable {m m' : Machine} {v : Value} {start n : Nat} {args : List Value} {r : Except Fault Callee}

/-- There is room for a call from the host through a chain. -/
def Fits (count n : Nat) (m : Machine) : Prop :=
  m.nativeDepth < m.limits.maxNativeDepth ∧ m.arena.admits (m.fiber.freeSlot + count + n) = true

/-- The end of a call from the host. -/
def handedBack (top : Nat) (x : Outcome (List Value)) : Outcome (List Value) :=
  x.afterwards fun r m => (withoutYield r, m.leaveCall top)

/-- What the host does when its call has begun. -/
def proceed (host : Host) (serve : Server) (depth time top : Nat) (s : Step (Option (List Value))) :
    Outcome (List Value) :=
  handedBack top ((s.run serve).andThen fun results m => match results with
    | some vs => some (.ok vs, m)
    | none => dispatch host serve depth time m)

theorem proceed_native (host : Host) (serve : Server) (depth time top : Nat) (s : Step (List Value)) :
    proceed host serve depth time top (s.bind fun vs => .ret (some vs)) = handedBack top (s.run serve) := by
  rw [proceed, Step.run_bind]
  obtain _ | ⟨f | vs, m⟩ := s.run serve <;> rfl

/-- A call from the host did not have the room it needs, and the slots in use have not changed. -/
def Overflows (x : Outcome (List Value)) (m : Machine) : Prop :=
  ∃ m', x = some (.error .stackOverflow, m') ∧ ∀ j, j < m.fiber.freeSlot → m'.arena.get j = m.arena.get j

/-- A call from the host puts its callee and its arguments above all that is in use. -/
theorem callValue_cases (host : Host) (serve : Server) (time : Nat) (v : Value) (args : List Value) (m : Machine) :
    (¬m.Fits args.length 0 ∧ Overflows (callValue host serve time v args m) m) ∨
    m.Fits args.length 0 ∧ ∃ m', Laid m.fiber.freeSlot v args m m' ∧ callValue host serve time v args m =
      proceed host serve m.callDepth time m.fiber.top
        (begin host m.fiber.freeSlot args.length none m'.enterCall) := by
  by_cases hdepth : m.limits.maxNativeDepth ≤ m.nativeDepth
  · exact .inl ⟨fun h => Nat.not_lt.2 hdepth h.1, m, if_pos hdepth, fun _ _ => rfl⟩
  have hplace : callValue host serve time v args m =
      ((place m.fiber.freeSlot v args m).run serve).andThen fun _ m₁ =>
        proceed host serve m₁.callDepth time m₁.fiber.top
          (begin host m.fiber.freeSlot args.length none m₁.enterCall) := if_neg hdepth
  rw [hplace]
  obtain ⟨hfull, m₁, h₁, hbelow⟩ | ⟨hroom, m₁, h₁, laid⟩ := place_cases m.fiber.freeSlot v args m <;> rw [h₁]
  · exact .inl ⟨fun h => hfull h.2, m₁, rfl, hbelow⟩
  · refine .inr ⟨⟨Nat.lt_of_not_le hdepth, hroom⟩, m₁, laid, ?_⟩
    have htop : m₁.fiber.top = m.fiber.top := by rw [laid.only]
    have hcalls : m₁.callDepth = m.callDepth := by
      rw [laid.only]
      rfl
    rw [← htop, ← hcalls]
    rfl

theorem callValue_of_callsTo (host : Host) (serve : Server) (time : Nat) (args : List Value)
    (hr : m.heap.CallsTo v n r) :
    (¬m.Fits args.length n ∧ Overflows (callValue host serve time v args m) m) ∨
    m.Fits args.length n ∧ ∃ m',
      Laid m.fiber.freeSlot (m.heap.link "__call" v n) (m.heap.passed v n ++ args) m.enterCall m' ∧
      Proceeds host m.fiber.freeSlot none (m.heap.passed v n ++ args) m'
        (fun f m₁ => some (.error f, m₁.leaveCall m.fiber.top))
        (fun s => handedBack m.fiber.top (s.run serve))
        (fun m₁ => handedBack m.fiber.top (dispatch host serve m.callDepth time m₁)) r
        (callValue host serve time v args m) := by
  obtain ⟨hfull, h⟩ | ⟨hfits₁, m₁, laid₁, hcall⟩ := callValue_cases host serve time v args m
  · exact .inl ⟨fun h => hfull ⟨h.1, Arena.admits_of_le h.2 (Nat.le_add_right _ _)⟩, h⟩
  have hm := laid₁.only.metamethod
  have hentered : Laid m.fiber.freeSlot v args m₁.enterCall m₁.enterCall :=
    ⟨laid₁.callee, laid₁.args, fun _ _ => rfl, fun _ => Iff.rfl, rfl⟩
  have hpassed : m₁.heap.passed v n = m.heap.passed v n := by
    rw [Heap.passed, Heap.passed, Heap.link_congr hm]
  rw [hcall]
  have hchain : m₁.enterCall.heap.CallsTo v n r := hr.congr hm
  obtain ⟨hfull, m₂, h₂, hbelow⟩ | ⟨hfits₂, m₂, laid₂, h₂⟩ := begin_of_callsTo host none hentered hchain
  · refine .inl ⟨fun h => hfull (.inr ((laid₁.room _).2 h.2)), m₂.leaveCall m.fiber.top, ?_,
      fun j hj => (hbelow j hj).trans (laid₁.below j hj)⟩
    rw [h₂]
    rfl
  refine .inr ⟨⟨hfits₁.1, hfits₂.elim (fun hn => hn ▸ hfits₁.2) (laid₁.room _).1⟩, m₂, ?_, ?_⟩
  · rw [← hpassed, ← Heap.link_congr hm]
    exact laid₁.enterCall.trans laid₂
  · rw [← hpassed]
    refine h₂.map (proceed host serve m.callDepth time m.fiber.top) (fun f m hf => ?_)
      (proceed_native host serve _ _ _) fun _ => rfl
    obtain rfl | rfl := hf
    · cases hr <;> rfl
    · rfl

/-- A call comes to what is at the end of the chain of callees: a function is called with the values on the way in front
of its arguments, and what cannot be called is refused. -/
theorem calls_unfolded (host : Host) (m : Machine) (v : Value) :
    (∃ n r, m.heap.CallsTo v n r) ∧ ∀ n r, m.heap.CallsTo v n r →
      (∀ start args wanted, m.arena.get start = v → m.arena.readRange (start + 1) args.length = args →
        (¬Exec.Fits start args.length n m ∧ Exec.Overflows start (callAt host start args.length wanted m) m) ∨
        Exec.Fits start args.length n m ∧ ∃ m',
          Laid start (m.heap.link "__call" v n) (m.heap.passed v n ++ args) m m' ∧
          Proceeds host start wanted (m.heap.passed v n ++ args) m' .raise (conclude start wanted) (.ret ()) r
            (callAt host start args.length wanted m)) ∧
      ∀ serve time args,
        (¬m.Fits args.length n ∧ Overflows (callValue host serve time v args m) m) ∨
        m.Fits args.length n ∧ ∃ m',
          Laid m.fiber.freeSlot (m.heap.link "__call" v n) (m.heap.passed v n ++ args) m.enterCall m' ∧
          Proceeds host m.fiber.freeSlot none (m.heap.passed v n ++ args) m'
            (fun f m₁ => some (.error f, m₁.leaveCall m.fiber.top))
            (fun s => handedBack m.fiber.top (s.run serve))
            (fun m₁ => handedBack m.fiber.top (dispatch host serve m.callDepth time m₁)) r
            (callValue host serve time v args m) := by
  refine ⟨m.heap.callsTo_total v, fun n r hr => ⟨fun start args wanted hv hargs => ?_, fun serve time args => ?_⟩⟩
  · exact callAt_of_callsTo host wanted ⟨hv, hargs, fun _ _ => rfl, fun _ => Iff.rfl, rfl⟩ hr
  · exact callValue_of_callsTo host serve time args hr

/-- A table with a handler that is a table with a handler. -/
def linked : Machine :=
  let acts : List Action := [.newTable, .newTable, .newTable, .newTable, .newNative ⟨"f", .host "f", 0⟩,
    .setField ⟨2⟩ (.ofString "__call") (.table ⟨3⟩), .setTableMetatable ⟨1⟩ (some ⟨2⟩),
    .setField ⟨4⟩ (.ofString "__call") (.native ⟨0⟩), .setTableMetatable ⟨3⟩ (some ⟨4⟩)]
  acts.foldl (fun m a => (a.apply m).2) (bare ⟨4, 64, 8, 8⟩)

/-- Its functions return what they are given. -/
def echoes : Host := fun _ args => pure args

/-- The function gets the second table, the first one and the argument. -/
theorem calls_unfolded_linked :
    let args : List Value := [.table ⟨3⟩, .table ⟨1⟩, .int 7]
    linked.heap.CallsTo (.table ⟨1⟩) 2 (.ok (.native ⟨0⟩)) ∧ ∃ m', m'.arena.readRange 1 3 = args ∧
      callValue echoes (serve echoes 0) 0 (.table ⟨1⟩) [.int 7] linked =
        handedBack 0 ((invokeNative echoes ⟨0⟩ args m').run (serve echoes 0)) := by
  intro args
  have hr : linked.heap.CallsTo (.table ⟨1⟩) 2 (.ok (.native ⟨0⟩)) := by
    refine .function (by decide) (fun i hi => ?_) (by decide +kernel)
    have hthrough : ∀ i < 2, (linked.heap.link "__call" (.table ⟨1⟩) i).callee? = none ∧
        linked.heap.callHandler (linked.heap.link "__call" (.table ⟨1⟩) i) ≠ .nil := by decide +kernel
    exact ⟨(hthrough i hi).1, (hthrough i hi).2⟩
  have hfits : linked.Fits 1 2 := ⟨by decide +kernel, by decide +kernel⟩
  have hpassed : linked.heap.passed (.table ⟨1⟩) 2 ++ [.int 7] = args := by decide +kernel
  obtain ⟨hfull, -⟩ | ⟨-, m', laid, h⟩ :=
    ((calls_unfolded echoes linked (.table ⟨1⟩)).2 2 _ hr).2 (serve echoes 0) 0 [.int 7]
  · exact absurd hfits hfull
  · rw [hpassed] at laid h
    refine ⟨hr, m', laid.args, ?_⟩
    generalize callValue echoes (serve echoes 0) 0 (.table ⟨1⟩) [.int 7] linked = x at h ⊢
    cases h
    rfl

end Machine
end RegisterMachine
