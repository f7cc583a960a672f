import RegisterMachine.Proofs.Frames
import RegisterMachine.Proofs.Parameters

/-! What becomes of the machine from one question to the next. A relation that is kept by changes of certain
kinds, one after the other, is kept by all computations that make changes of no other kind, whatever the
answers to their questions are. -/
namespace RegisterMachine

/-- A new frame holds nothing open, and there is room for it and for its window. -/
structure Frame.Fits (f : Frame) (m : Machine) : Prop where
  live : f.live = []
  marks : f.marks = #[]
  depth : m.callDepth < m.limits.maxCallDepth
  window : m.arena.admits f.top

theorem Frame.Fits.enter {f : Frame} {m : Machine} (h : f.Fits m) : Machine.Enter m (m.enterFrame f) :=
  .intro f h.live h.marks h.depth

namespace Machine

/-- The quiet changes of a computation, but for assignments to captured variables and actions. -/
inductive Plain : Machine → Machine → Prop
  | write {m : Machine} (op : Arena.Op) : op.fits m.arena → Plain m (m.modifyArena op.apply)
  | top {m : Machine} (top : Nat) : Plain m (m.setTop top)
  | setFrom {m : Machine} (r : Ref .table) (first : Nat) (vs : List Value) :
      Plain m (m.modifyHeap (·.modifyTable r (·.setFrom first vs)))
  | closure {m : Machine} (c : Closure) : Plain m { m with heap := (m.heap.newClosure c).2 }
  | snapshot {m : Machine} (s : Snapshot) : Plain m { m with snapshots := m.snapshots.push s }

theorem Plain.quiet {m m' : Machine} (h : Plain m m') : Quiet m m' := by
  cases h with
  | write op hf => exact .write op hf
  | top top => exact .top top
  | setFrom r first vs => exact .setFrom r first vs
  | closure c => exact .closure c
  | snapshot s => exact .snapshot s

/-- A relation that is kept by actions. -/
structure Acts (R : Machine → Machine → Prop) : Prop where
  refl (m : Machine) : R m m
  act (m : Machine) (a : Action) : R m (a.apply m).2

/-- A relation that is kept by quiet changes, but for assignments to captured variables. -/
structure Quiets (R : Machine → Machine → Prop) : Prop extends Acts R where
  plain {m m' : Machine} : Plain m m' → R m m'

/-- A relation that is kept by changes of the innermost frame too, and by new frames. -/
structure Bears (R : Machine → Machine → Prop) : Prop extends Quiets R where
  goto {m : Machine} {f : Frame} : m.frame? = some f → ∀ g : Frame → Nat,
    R m (m.modifyFrame fun f => { f with pc := g f })
  capture {m : Machine} {f : Frame} {slot : Nat} : m.frame? = some f → f.broker? slot = none →
    R m (m.openBroker slot)
  enter {m : Machine} {f : Frame} : f.Fits m → R m (m.enterFrame f)
  await (m : Machine) (p : Pending) : R m (m.await p)

/-- A relation that is kept by actions and where frames are taken off. -/
structure Sheds (R : Machine → Machine → Prop) : Prop extends Acts R where
  drop {m : Machine} {f : Frame} {calls : CallStack} : m.fiber.calls.pop? = some (f, calls) →
    R m (m.dropFrame f calls)

end Machine

open Machine

/-- Between questions the machine keeps to a relation; nothing is known of the answers. -/
def along (R : Machine → Machine → Prop) : Contract where
  path := R
  asks _ := True
  answers _ _ _ := True

variable {R : Machine → Machine → Prop}

/-- More may be said to be kept. -/
theorem Step.Follows.widen {α : Type} {R' : Machine → Machine → Prop} {ends : Except Fault α → Machine → Prop}
    {s : Step α} {m : Machine} (hs : s.Follows (along R) ends m) (h : ∀ m m', R m m' → R' m m') :
    s.Follows (along R') ends m := by
  induction s generalizing m with
  | ret a m' => exact ⟨h _ _ hs.1, hs.2⟩
  | raise f m' => exact ⟨h _ _ hs.1, hs.2⟩
  | ask q m' k ih => exact ⟨h _ _ hs.1, trivial, fun r m'' _ => ih r m'' (hs.2.2 r m'' trivial)⟩

variable [IsTrans Machine R]

instance : IsTrans Machine (along R).path := inferInstanceAs (IsTrans Machine R)

namespace Exec

/-- A computation that keeps to a relation. -/
def Along (R : Machine → Machine → Prop) (α : Type) (x : Exec α) : Prop :=
  ∀ m, (x m).Follows (along R) (fun _ _ => True) m

variable {α β : Type} {m m' : Machine}

namespace Along

theorem bind {x : Exec α} {f : α → Exec β} (hx : Along R α x) (hf : ∀ a, Along R β (f a)) :
    Along R β (x >>= f) := by
  intro m
  rw [bind_eq]
  exact (hx m).bind (fun a m' _ => hf a m') fun _ _ h => h

omit [IsTrans Machine R] in
theorem ret (a : α) (h : R m m') : (Step.ret a m').Follows (along R) (fun _ _ => True) m := ⟨h, trivial⟩

section

variable (h : Acts R)

include h

omit [IsTrans Machine R] in
theorem raise (f : Fault) (m : Machine) :
    (Step.raise f m : Step α).Follows (along R) (fun _ _ => True) m := ⟨h.refl m, trivial⟩

omit [IsTrans Machine R] in
theorem pure (a : α) : Along R α (pure a) := fun m => ret a (h.refl m)

omit [IsTrans Machine R] in
theorem read (g : Machine → α) : Along R α (read g) := fun m => ret (g m) (h.refl m)

theorem script (s : Script α) : Along R α s.exec := by
  intro m
  induction s generalizing m with
  | done a => exact ret a (h.refl m)
  | fail f => exact raise h f m
  | look k ih => exact ih m m
  | act x k ih => exact (ih _ _).mono (h.act m x)
  | ask q k ih => exact ⟨h.refl m, trivial, fun r m' _ => ih r m'⟩

theorem closeSlots (slots : List Nat) (error : Value) : Along R Unit (closeSlots slots error) :=
  bind (read h _) fun _ => script h _

end

section

variable (h : Quiets R)

include h

omit [IsTrans Machine R] in
theorem write (op : Arena.Op) : Along R Unit fun m =>
    if op.fits m.arena then .ret () (m.modifyArena op.apply) else .raise .stackOverflow m := by
  intro m
  dsimp only
  split
  · rename_i hf
    exact ret () (h.plain (.write op hf))
  · exact raise h.toActs _ m

theorem closed : Closed (Along R) where
  pure := pure h.toActs
  bind := bind
  fail _ m := raise h.toActs _ m
  read := read h.toActs
  frame m := by
    unfold frame
    split
    · exact ret _ (h.refl m)
    · exact raise h.toActs _ m
  setSlot i v := write h (.put i v)
  writeRange start vs := write h (.putRange start vs)
  clearRange start stop := write h (.clearRange start stop)
  modifyTop g m := ret () (h.plain (.top (g m)))
  setFrom r first vs m := ret () (h.plain (.setFrom r first vs))
  newClosure c m := ret _ (h.plain (.closure c))
  script _ := script h.toActs _

theorem deliver (stop : Nat) (e : Exit) : Along R (Option (List Value)) (deliver stop e) := by
  refine bind (read h.toActs _) fun b => ?_
  split
  · exact pure h.toActs _
  · exact bind ((closed h).placeResults _ _ _) fun _ => pure h.toActs _

theorem invokeNative (host : Host) (r : Ref .native) (args : List Value) :
    Along R (List Value) (invokeNative host r args) := by
  have hstop : Along R Unit stopForDebugger := by
    intro m
    unfold stopForDebugger
    split
    · rename_i s answer _ _
      cases answer with
      | some f => exact ⟨h.plain (.snapshot s), trivial⟩
      | none => exact ret () (h.plain (.snapshot s))
    · exact ret () (h.refl m)
  intro m
  refine (script h.toActs _ m).handle fun result m' _ => ?_
  split
  · exact ret _ (h.refl m')
  · exact bind hstop (fun _ => pure h.toActs _) m'
  · exact raise h.toActs _ m'

end

section

variable (h : Bears R)

include h

omit [IsTrans Machine R] in
theorem modifyFrame {g : Frame → Frame} (hg : ∀ m f, m.frame? = some f → R m (m.modifyFrame g)) :
    Along R Unit (modifyFrame g) := by
  intro m
  unfold Exec.modifyFrame
  split
  · rename_i f hf
    exact ret () (hg m f hf)
  · exact raise h.toActs _ m

omit [IsTrans Machine R] in
theorem fetch : Along R (Option Word) fetch := by
  intro m
  unfold Exec.fetch
  split
  · exact raise h.toActs _ m
  · rename_i hf
    split
    · exact ret _ (h.goto hf fun f => f.pc + 1)
    · exact ret _ (h.refl m)

omit [IsTrans Machine R] in
theorem jump (offset : Int) : Along R Unit (jump offset) := by
  intro m
  unfold Exec.jump
  split
  · exact raise h.toActs _ m
  · rename_i hf
    split
    · rename_i f' _
      exact ret () (h.goto hf fun _ => f'.pc)
    · exact raise h.toActs _ m

omit [IsTrans Machine R] in
theorem capture (slot : Nat) : Along R (Ref .broker) (capture slot) := by
  intro m
  rw [capture_eq]
  split
  · exact raise h.toActs _ m
  · rename_i f hf
    split
    · exact ret _ (h.refl m)
    · rename_i hb
      exact ret _ (h.capture hf hb)

theorem pushFrame (r : Ref .closure) (start count : Nat) (wanted : Option Nat) :
    Along R Unit (pushFrame r start count wanted) := by
  intro m
  rw [pushFrame_eq]
  split
  · exact raise h.toActs _ m
  · rename_i hdepth
    have hopen : Along R Unit (openWindow (newFrame m r start count wanted) count) :=
      bind (write h.toQuiets (.grow _)) fun _ => bind ((closed h.toQuiets).clearRange _ _) fun _ =>
        (closed h.toQuiets).setTop _
    have hopen := hopen m
    rw [bind_eq]
    obtain ⟨m', hq, hret | hraise⟩ := openWindow_quiet (newFrame m r start count wanted) count m
    · obtain ⟨hd, hl⟩ := Quiet.same_of_path hq
      have hfits : (newFrame m r start count wanted).Fits m' :=
        ⟨rfl, rfl, by rw [hd, hl]; exact Nat.lt_of_not_le hdepth, admits_of_openWindow hret⟩
      rw [hret] at hopen ⊢
      exact ret () (IsTrans.trans _ _ _ hopen.1 (h.enter hfits))
    · rw [hraise] at hopen ⊢
      exact hopen

theorem begin (host : Host) (start count : Nat) (wanted : Option Nat) :
    Along R (Option (List Value)) (begin host start count wanted) := by
  refine bind ((closed h.toQuiets).resolveAlong _ _ _) fun p => ?_
  obtain ⟨r | r, count⟩ := p
  · exact bind (pushFrame h _ _ _ _) fun _ => pure h.toActs _
  · refine bind (read h.toActs _) fun args => ?_
    rw [map_eq_pure_bind]
    exact bind (invokeNative h.toQuiets host r args) fun _ => pure h.toActs _

theorem callFault (start : Nat) (wanted : Option Nat) (f : Fault) :
    Along R Unit (callFault start wanted f) := by
  unfold Exec.callFault
  split
  · refine bind (read h.toActs _) fun fiber => ?_
    split
    · exact fun m => raise h.toActs _ m
    · split
      · exact fun m => raise h.toActs _ m
      · exact bind (fun m => ret () (h.await m _)) fun _ m => raise h.toActs _ m
  · exact fun m => raise h.toActs _ m

theorem callAt (host : Host) (start count : Nat) (wanted : Option Nat) :
    Along R Unit (callAt host start count wanted) := by
  intro m
  rw [callAt_eq]
  have hcall : Along R Unit (callOutcome host start count wanted) := by
    refine bind (begin h host start count wanted) fun results => ?_
    cases results with
    | none => exact pure h.toActs _
    | some vs => exact (closed h.toQuiets).placeResults _ _ _
  refine (hcall m).handle fun result m' _ => ?_
  cases result with
  | ok _ => exact ret () (h.refl m')
  | error f => exact callFault h start wanted f m'

theorem closedInside (host : Host) : ClosedInside host 0 (Along R) where
  toClosedAbove := (closed h.toQuiets).above 0
  base hk := bind (read h.toActs _) fun n => hk n (Nat.zero_le _)
  frame hk := bind (closed h.toQuiets).frame fun f => hk f (Nat.zero_le _)
  closeList _ := (closed h.toQuiets).modifyTop _
  fetch := fetch h
  skip := modifyFrame h fun _ _ hf => h.goto hf fun f => f.pc + 1
  jump := jump h
  capture _ := capture h _
  callAt count wanted _ := callAt h host _ count wanted

theorem closeFrom {start : Nat} (hpart : ∀ (m : Machine) (f : Frame), m.frame? = some f → R m (m.part f start)) :
    Along R Unit (closeFrom start) := by
  intro m
  rw [closeFrom_eq]
  split
  · exact raise h.toActs _ m
  · rename_i f hf
    exact (closeSlots h.toActs _ _ _).mono (hpart m f hf)

end

section

variable (h : Sheds R)

include h

theorem drop {fault : Option Fault} {k : Frame → Exec β} (hk : ∀ f, Along R β (k f)) :
    Along R β (popFrame >>= fun f => cleanup f fault >>= fun _ => k f) := by
  intro m
  rw [popFrame_bind_eq]
  split
  · exact raise h.toActs _ m
  · rename_i f calls hp
    rw [bind_eq, cleanup_eq]
    exact ((closeSlots h.toActs _ _ _).bind (fun _ m' _ => hk f m') fun _ _ h => h).mono (h.drop hp)

theorem dropAll {fault : Option Fault} {k : Except Fault Unit → Exec β} (hk : ∀ r, Along R β (k r)) :
    Along R β (popFrame >>= fun f => attempt (cleanup f fault) >>= k) := by
  intro m
  rw [popFrame_bind_eq]
  split
  · exact raise h.toActs _ m
  · rename_i f calls hp
    rw [attempt_bind_eq, cleanup_eq]
    exact ((closeSlots h.toActs _ _ _).handle fun r m' _ => hk r m').mono (h.drop hp)

theorem leave (vs : List Value) : Along R Exit (leave vs) := drop h fun _ => pure h.toActs _

theorem unwind (stop : Nat) (f : Fault) : Along R Fault (unwind stop f) := by
  have hframes (n : Nat) (f : Fault) : Along R Fault (unwindFrames n f) := by
    induction n generalizing f with
    | zero => exact pure h.toActs f
    | succ n ih =>
      refine dropAll h fun r => ?_
      cases r with
      | ok _ => exact ih f
      | error e => exact bind (read h.toActs _) ih
  unfold Exec.unwind
  split
  · exact pure h.toActs _
  · exact bind (read h.toActs _) fun f => bind (read h.toActs _) fun depth => hframes _ f

theorem closeFrames (failure : Option Fault) (n : Nat) :
    Along R (Option Fault) (closeFrames failure n) := by
  induction n generalizing failure with
  | zero => exact pure h.toActs failure
  | succ n ih =>
    refine dropAll h fun r => ?_
    cases r with
    | ok _ => exact ih failure
    | error e => exact ih (some e)

end

theorem tailCall (h : Bears R) (hd : Sheds R) (r : Ref .closure) (start count : Nat) :
    Along R Unit (tailCall r start count) := by
  refine bind (read h.toActs _) fun args => drop hd fun f => ?_
  exact bind ((closed h.toQuiets).setSlot _ _) fun _ => bind ((closed h.toQuiets).writeRange _ _) fun _ =>
    pushFrame h _ _ _ _

end Along
end Exec
end RegisterMachine
