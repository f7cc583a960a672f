import RegisterMachine.Proofs.Natives
import RegisterMachine.Proofs.Reachable

/-! Who asks. Questions are asked by operators, by native functions, and for the handlers of marked values.
All operators and most functions hand on the fault of an answer as it is; the others are functions that
may keep it, and the closing of values, which goes on with the next one. -/
namespace RegisterMachine

open Machine

/-- Faults are handed on at once. Transfers of control may be treated otherwise. -/
def Propagates {α β : Type} (next : Except Fault α → Machine → Step β) : Prop :=
  ∀ f m, f.isInterrupt = false → next (.error f) m = .raise f m

namespace Script

variable {α : Type}

/-- A script that hands on the faults of its questions. -/
def Propagates : Script α → Prop
  | .done _ => True
  | .fail _ => True
  | .look k => ∀ m, (k m).Propagates
  | .act _ k => ∀ v, (k v).Propagates
  | .ask _ k => (∀ r, (k r).Propagates) ∧ RegisterMachine.Propagates fun r => (k r).exec

theorem Plain.propagates {s : Script α} (hs : s.Plain) : s.Propagates := by
  induction s with
  | done a => trivial
  | fail f => trivial
  | look k ih => exact fun m => ih m (hs m)
  | act a k ih => exact fun v => ih v (hs v)
  | ask q k ih =>
    refine ⟨fun r => ?_, fun f m _ => ?_⟩
    · cases r with
      | ok reply => exact ih _ (hs.1 reply)
      | error f =>
        rw [hs.2 f]
        trivial
    · show (k (.error f)).exec m = .raise f m
      rw [hs.2 f]
      rfl

/-- A script gets to a question, with what it does from the answer on. -/
inductive Asks : Script α → Query → (Except Fault Reply → Script α) → Prop
  | here {q : Query} {k : Except Fault Reply → Script α} : Asks (.ask q k) q k
  | look {k : Machine → Script α} {m : Machine} {q : Query} {rest : Except Fault Reply → Script α} :
      Asks (k m) q rest → Asks (.look k) q rest
  | act {a : Action} {k : Value → Script α} {v : Value} {q : Query}
      {rest : Except Fault Reply → Script α} : Asks (k v) q rest → Asks (.act a k) q rest
  | ask {q' : Query} {k : Except Fault Reply → Script α} {r : Except Fault Reply} {q : Query}
      {rest : Except Fault Reply → Script α} : Asks (k r) q rest → Asks (.ask q' k) q rest

/-- What closing values goes on with from the answer of a handler. -/
def closeRest (error : Value) (failure : Option Fault) (vs : List Value) :
    Except Fault Reply → Script Unit
  | .ok _ => closeValues error failure vs
  | .error f => closeValues f.payload (some f) vs

end Script

/-- Functions of the library that keep faults, and those of the host, which may. -/
def Routine.mayKeep : Routine → Bool
  | .builtin b => [Builtin.pcall, .xpcall, .coResume, .coClose].contains b
  | .host _ => true
  | _ => false

theorem Builtin.propagates_script {b : Builtin} (h : (Routine.builtin b).mayKeep = false)
    (args : List Value) : (b.script args).Propagates := by
  cases hb : b.isPlain with
  | true => exact (plain_script hb args).propagates
  | false =>
    cases b
    case pcall => cases h
    case xpcall => cases h
    case coResume => cases h
    case coClose => cases h
    case coYield => exact trivial
    case debugBreak => exact trivial
    case exit =>
      show (Library.exit args).Propagates
      unfold Library.exit
      split
      · trivial
      · trivial
      · trivial
      · split <;> trivial
    all_goals cases hb

theorem Native.propagates_script {n : Native} (h : n.routine.mayKeep = false) (host : Host)
    (args : List Value) : (n.script host args).Propagates := by
  unfold Native.script
  split
  · trivial
  · obtain ⟨name, routine, minArgs⟩ := n
    cases routine with
    | builtin b => exact b.propagates_script h args
    | ipairsStep => exact (Library.plain_ipairsStep args).propagates
    | wrapped co =>
      have hplain : (Library.wrapped co args).Plain := (Script.plain_question _).bind fun _ => trivial
      exact hplain.propagates
    | host name => cases h

def AskedBy (s : Script (List Value)) (q : Query) {α : Type} (next : Except Fault Reply → Machine → Step α)
    (outcome : Except Fault (List Value) → Machine → Step α) : Prop :=
  Propagates outcome ∧ ∃ rest, s.Asks q rest ∧ ∀ r m, next r m = ((rest r).exec m).handle outcome

/-- Who asked a question, by what is done from its answer on. -/
inductive Asked (host : Host) (q : Query) {α : Type} (next : Except Fault Reply → Machine → Step α) :
    Prop
  /-- An operator, or a function, that hands faults on. -/
  | propagating : Propagates next → Asked host q next
  /-- A function that does not. -/
  | native (n : Native) (args : List Value) (outcome : Except Fault (List Value) → Machine → Step α) :
      n.routine.mayKeep = true → ¬(n.script host args).Propagates →
      AskedBy (n.script host args) q next outcome → Asked host q next
  /-- The closing of values, for a handler. -/
  | closing (error : Value) (failure : Option Fault) (vs : List Value)
      (outcome : Except Fault Unit → Machine → Step α) :
      (∀ r m, next r m = ((Script.closeRest error failure vs r).exec m).handle outcome) →
      Asked host q next

namespace Step

variable {host : Host} {α β γ : Type}

theorem handle_handle (s : Step α) (k : Except Fault α → Machine → Step β)
    (k' : Except Fault β → Machine → Step γ) :
    (s.handle k).handle k' = s.handle fun r m => (k r m).handle k' := by
  induction s with
  | ret a m => rfl
  | raise f m => rfl
  | ask q m next ih => simp only [handle, ih]

/-- Going on with a result is handling one of the outcomes. -/
def onResult (k : α → Machine → Step β) : Except Fault α → Machine → Step β
  | .ok a, m => k a m
  | .error f, m => .raise f m

theorem bind_eq_handle (s : Step α) (k : α → Machine → Step β) : s.bind k = s.handle (onResult k) := by
  induction s with
  | ret a m => rfl
  | raise f m => rfl
  | ask q m next ih => simp only [bind, handle, ih]

/-- All questions are asked by one of the above. -/
def AllAsked (host : Host) : Step α → Prop
  | .ret _ _ => True
  | .raise _ _ => True
  | .ask q _ next => Asked host q next ∧ ∀ r m, (next r m).AllAsked host

end Step

section

variable {host : Host} {α β : Type}

/-- More is done with the outcome of the computation that asked. -/
theorem Asked.handle {q : Query} {next : Except Fault Reply → Machine → Step α}
    {k : Except Fault α → Machine → Step β} (h : Asked host q next) (hk : Propagates k) :
    Asked host q fun r m => (next r m).handle k := by
  cases h with
  | propagating hp =>
    refine .propagating fun f m hf => ?_
    rw [hp f m hf]
    exact hk f m hf
  | native n args outcome hkeep hn ha =>
    obtain ⟨ho, rest, ha, hnext⟩ := ha
    refine .native n args (fun r m => (outcome r m).handle k) hkeep hn
      ⟨fun f m hf => ?_, rest, ha, fun r m => ?_⟩
    · dsimp only
      rw [ho f m hf]
      exact hk f m hf
    · dsimp only
      rw [hnext, Step.handle_handle]
  | closing error failure vs outcome hnext =>
    refine .closing error failure vs (fun r m => (outcome r m).handle k) fun r m => ?_
    rw [hnext, Step.handle_handle]

theorem Step.AllAsked.handle {s : Step α} {k : Except Fault α → Machine → Step β}
    (h : s.AllAsked host) (hk : Propagates k) (hall : ∀ r m, (k r m).AllAsked host) :
    (s.handle k).AllAsked host := by
  induction s with
  | ret a m => exact hall _ m
  | raise f m => exact hall _ m
  | ask q m next ih => exact ⟨h.1.handle hk, fun r m' => ih r m' (h.2 r m')⟩

theorem Step.AllAsked.bind {s : Step α} {k : α → Machine → Step β} (h : s.AllAsked host)
    (hk : ∀ a m, (k a m).AllAsked host) : (s.bind k).AllAsked host := by
  rw [Step.bind_eq_handle]
  refine h.handle (fun _ _ _ => rfl) fun r m => ?_
  cases r with
  | ok a => exact hk a m
  | error f => trivial

theorem Script.Propagates.allAsked {s : Script α} (hs : s.Propagates) (m : Machine) :
    (s.exec m).AllAsked host := by
  induction s generalizing m with
  | done a => trivial
  | fail f => trivial
  | look k ih => exact ih m (hs m) m
  | act a k ih => exact ih _ (hs _) _
  | ask q k ih => exact ⟨.propagating hs.2, fun r m' => ih r (hs.1 r) m'⟩

theorem Native.allAsked (n : Native) (args : List Value) (m : Machine)
    {outcome : Except Fault (List Value) → Machine → Step α} (ho : Propagates outcome)
    (hall : ∀ r m, (outcome r m).AllAsked host) :
    (((n.script host args).exec m).handle outcome).AllAsked host := by
  by_cases hn : (n.script host args).Propagates
  · exact (hn.allAsked m).handle ho hall
  · have hkeep : n.routine.mayKeep = true :=
      Bool.of_not_eq_false fun h => hn (n.propagates_script h host args)
    -- by induction on what is left of the script
    have hpart : ∀ s : Script (List Value),
        (∀ q rest, s.Asks q rest → (n.script host args).Asks q rest) →
        ∀ m, ((s.exec m).handle outcome).AllAsked host := by
      intro s
      induction s with
      | done vs => exact fun _ m => hall _ m
      | fail f => exact fun _ m => hall _ m
      | look k ih => exact fun hpart m => ih m (fun q rest h => hpart q rest (.look h)) m
      | act a k ih => exact fun hpart m => ih _ (fun q rest h => hpart q rest (.act h)) _
      | ask q k ih =>
        refine fun hpart m => ⟨.native n args outcome hkeep hn ⟨ho, k, hpart q k .here, fun _ _ => rfl⟩, ?_⟩
        exact fun r m' => ih r (fun q rest h => hpart q rest (.ask h)) m'
    exact hpart _ (fun _ _ h => h) m

theorem Script.allAsked_closeValues (vs : List Value) (error : Value) (failure : Option Fault)
    (m : Machine) {outcome : Except Fault Unit → Machine → Step α}
    (hall : ∀ r m, (outcome r m).AllAsked host) :
    (((closeValues error failure vs).exec m).handle outcome).AllAsked host := by
  induction vs generalizing error failure m with
  | nil => cases failure <;> exact hall _ m
  | cons v vs ih =>
    obtain ⟨m', -, he⟩ | ⟨q, he⟩ := Exec.closeValues_cons error failure v vs m <;> rw [he]
    · exact ih error failure m'
    · refine ⟨.closing error failure vs outcome fun r m' => ?_, fun r m' => ?_⟩
      · cases r <;> rfl
      · cases r with
        | ok reply => exact ih error failure m'
        | error f => exact ih f.payload (some f) m'

end

namespace Exec

def AllAsked (host : Host) (α : Type) (x : Exec α) : Prop := ∀ m, (x m).AllAsked host

variable {host : Host}

theorem allAsked_of_ite {α : Type} {p : Prop} [Decidable p] {s t : Step α} (hs : s.AllAsked host)
    (ht : t.AllAsked host) : (if p then s else t).AllAsked host := by
  split
  · exact hs
  · exact ht

theorem allAsked_bind {α β : Type} {x : Exec α} {f : α → Exec β} (hx : AllAsked host α x)
    (hf : ∀ a, AllAsked host β (f a)) : AllAsked host β (x >>= f) := by
  intro m
  rw [bind_eq]
  exact (hx m).bind fun a m' => hf a m'

theorem allAsked_closed : Closed (AllAsked host) where
  pure a m := trivial
  bind := allAsked_bind
  fail hf m := trivial
  read g m := trivial
  frame m := by
    unfold frame
    split <;> trivial
  setSlot i v m := allAsked_of_ite trivial trivial
  writeRange start vs m := allAsked_of_ite trivial trivial
  clearRange start stop m := allAsked_of_ite trivial trivial
  modifyTop g m := trivial
  setFrom r first vs m := trivial
  newClosure c m := trivial
  script hs m := hs.propagates.allAsked m

theorem allAsked_pushFrame (r : Ref .closure) (start count : Nat) (wanted : Option Nat) :
    AllAsked host Unit (pushFrame r start count wanted) := by
  intro m
  obtain ⟨m', -, hr | ⟨-, hr⟩⟩ := pushFrame_cases r start count wanted m <;> rw [hr] <;> trivial

theorem allAsked_stopForDebugger : AllAsked host Unit stopForDebugger := by
  intro m
  unfold stopForDebugger
  split
  · split <;> trivial
  · trivial

theorem allAsked_popFrame : AllAsked host Frame popFrame := by
  intro m
  unfold popFrame
  split <;> trivial

theorem allAsked_invokeNative (r : Ref .native) (args : List Value) :
    AllAsked host (List Value) (invokeNative host r args) := by
  intro m
  refine Native.allAsked _ args m (fun f m' hf => ?_) fun result m' => ?_
  · cases f with
    | interrupt i => cases hf
    | _ => rfl
  · split
    · trivial
    · exact allAsked_bind allAsked_stopForDebugger (fun _ => allAsked_closed.pure _) m'
    · trivial

theorem allAsked_begin (start count : Nat) (wanted : Option Nat) :
    AllAsked host (Option (List Value)) (begin host start count wanted) := by
  refine allAsked_bind (allAsked_closed.resolveAlong _ _ _) fun p => ?_
  obtain ⟨r | r, count⟩ := p
  · exact allAsked_bind (allAsked_pushFrame r start count wanted) fun _ => allAsked_closed.pure _
  · refine allAsked_bind (allAsked_closed.read _) fun args => ?_
    rw [map_eq_pure_bind]
    exact allAsked_bind (allAsked_invokeNative r args) fun _ => allAsked_closed.pure _

theorem allAsked_callAt (start count : Nat) (wanted : Option Nat) :
    AllAsked host Unit (callAt host start count wanted) := by
  intro m
  have hcall : AllAsked host Unit (callOutcome host start count wanted) := by
    refine allAsked_bind (allAsked_begin start count wanted) fun results => ?_
    cases results with
    | some vs => exact allAsked_closed.placeResults _ _ _
    | none => exact allAsked_closed.pure _
  rw [callAt_eq]
  refine (hcall m).handle (fun f m' hf => ?_) fun result m' => ?_
  · cases f with
    | interrupt i => cases hf
    | _ => rfl
  · cases result with
    | ok _ => trivial
    | error f =>
      show (callFault start wanted f m').AllAsked host
      unfold callFault
      split
      · refine allAsked_bind (allAsked_closed.read _) (fun fiber => ?_) m'
        split
        · exact allAsked_closed.failWith _
        · split
          · exact allAsked_closed.failWith _
          · exact allAsked_bind (fun _ => trivial) fun _ _ => trivial
      · trivial

theorem allAsked_onFrames : ClosedOnFrames host (AllAsked host) where
  toClosed := allAsked_closed
  setBroker r v m := by
    unfold setBroker
    split
    · exact allAsked_of_ite trivial trivial
    · trivial
  modifyFrame g m := by
    unfold modifyFrame
    split <;> trivial
  fetch m := by
    unfold fetch
    split
    · trivial
    · split <;> trivial
  jump offset m := by
    unfold jump
    split
    · trivial
    · split <;> trivial
  capture slot m := by
    rw [capture_eq]
    split
    · trivial
    · split <;> trivial
  closeBrokers rs m := trivial
  closeSlots slots error m := by
    show ((Script.closeValues error none (slots.map m.arena.get)).exec m).AllAsked host
    rw [← Step.handle_same ((Script.closeValues error none _).exec m)]
    refine Script.allAsked_closeValues _ error none m fun r m' => ?_
    cases r <;> trivial
  popFrame := allAsked_popFrame
  pushFrame := allAsked_pushFrame
  callAt := allAsked_callAt

/-- Frames are taken off, and their handlers called, whatever is done with the outcomes. -/
theorem allAsked_drop {β : Type} (fault : Option Fault) {k : Except Fault Unit → Exec β}
    (hk : ∀ r, AllAsked host β (k r)) :
    AllAsked host β (popFrame >>= fun f => attempt (cleanup f fault) >>= k) := by
  refine allAsked_bind allAsked_popFrame fun f m => ?_
  rw [attempt_bind_eq]
  exact Script.allAsked_closeValues _ _ none _ hk

theorem allAsked_unwindFrames (n : Nat) (f : Fault) : AllAsked host Fault (unwindFrames n f) := by
  induction n generalizing f with
  | zero => exact allAsked_closed.pure f
  | succ n ih =>
    refine allAsked_drop (some f) fun r => ?_
    cases r with
    | ok _ => exact ih f
    | error e => exact allAsked_bind (allAsked_closed.read _) fun e => ih e

theorem allAsked_unwind (stop : Nat) (f : Fault) : AllAsked host Fault (unwind stop f) := by
  unfold unwind
  split
  · exact allAsked_closed.pure _
  · exact allAsked_bind (allAsked_closed.read _) fun e =>
      allAsked_bind (allAsked_closed.read _) fun depth => allAsked_unwindFrames _ e

theorem allAsked_closeFrames (failure : Option Fault) (n : Nat) :
    AllAsked host (Option Fault) (closeFrames failure n) := by
  induction n generalizing failure with
  | zero => exact allAsked_closed.pure failure
  | succ n ih =>
    refine allAsked_drop none fun r => ?_
    cases r with
    | ok _ => exact ih failure
    | error e => exact ih (some e)

end Exec

/-- A question of which it is known who asked it, as of those that may be asked after it. -/
def Level.Asked (host : Host) (l : Level) : Prop :=
  RegisterMachine.Asked host l.query l.next ∧ ∀ r m, (l.next r m).AllAsked host

namespace Config

variable {host : Host} {c : Config}

theorem allAsked_of_begins {m : Machine} {α : Type} {g : Stage α} {s : Step α} (h : Begins host m g s) :
    s.AllAsked host := by
  have hclosed : Exec.Closed (Exec.AllAsked host) := Exec.allAsked_closed
  cases h with
  | place start f args m =>
    exact Exec.allAsked_bind (hclosed.setSlot _ _) (fun _ => hclosed.writeRange _ _) m
  | call p start count m => exact Exec.allAsked_begin start count none m
  | unwind p f m => exact (Exec.allAsked_unwind p.stop f m).bind fun _ _ => trivial
  | resumed p start wanted args m => exact (hclosed.placeResults _ _ _ _).bind fun _ _ => trivial
  | yielded p args m => trivial
  | native p r args m =>
    refine (Exec.allAsked_invokeNative r args m).handle (fun f m' hf => ?_) fun result m' => ?_
    · cases f with
      | interrupt i => cases hf
      | _ => rfl
    · unfold entryOutcome
      split <;> trivial
  | closure p r args m => exact (Exec.allAsked_onFrames.enter r args m).bind fun _ _ => trivial
  | close co token m => exact Exec.allAsked_closeFrames none _ m

theorem Reachable.asked (h : Reachable host c) : ∀ l ∈ c.below, l.Asked host := by
  have h : c.Throughout (fun _ s => s.AllAsked host) (Level.Asked host) :=
    h.throughout allAsked_of_begins (fun p m => Exec.allAsked_onFrames.step p.stop m) (fun h => h)
      fun hl _ _ => hl.2 _ _
  exact h.level

end Config
end RegisterMachine
