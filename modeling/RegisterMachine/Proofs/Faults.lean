import RegisterMachine.Proofs.Frames

/-! Faults on their way. While frames are taken off after a fault, handlers are called for the values they
hold open; a handler that fails puts its own fault in the place of the one on its way. -/
namespace RegisterMachine

open Machine

abbrev Fault.exit (status : Int32) : Fault := .interrupt (.exit status)

namespace Fault

def isExit : Fault → Bool
  | .interrupt (.exit _) => true
  | _ => false

/-- The fault that is on its way once a question is answered. -/
def after (f : Fault) : Except Fault Reply → Fault
  | .ok _ => f
  | .error e => e

def Located (f e : Fault) : Prop := e = f ∨ ∃ m : Machine, e = m.locate f

theorem locate_locate (m m' : Machine) (f : Fault) : m'.locate (m.locate f) = m.locate f := by
  cases f <;> rfl

theorem Located.refl (f : Fault) : Located f f := .inl rfl

theorem Located.locate {f e : Fault} (h : Located f e) (m : Machine) : Located f (m.locate e) := by
  obtain rfl | ⟨m', rfl⟩ := h
  · exact .inr ⟨m, rfl⟩
  · exact .inr ⟨m', locate_locate m' m f⟩

theorem Located.isExit_eq {f e : Fault} (h : Located f e) : e.isExit = f.isExit := by
  obtain rfl | ⟨m, rfl⟩ := h
  · rfl
  · cases f <;> rfl

theorem Located.isYield_eq {f e : Fault} (h : Located f e) : e.isYield = f.isYield := by
  obtain rfl | ⟨m, rfl⟩ := h
  · rfl
  · exact Exec.isYield_locate m f

end Fault

def Raised {α : Type} (f : Fault) (r : Except Fault α) : Prop := ∃ e, r = .error e ∧ f.Located e

def Found (f : Fault) (r : Except Fault Fault) : Prop := ∃ e, r = .ok e ∧ f.Located e

def Noted (f : Fault) (r : Except Fault (Option Fault)) : Prop :=
  ∃ e, f.Located e ∧ (r = .ok (some e) ∨ r = .error e)

namespace Step

variable {α β : Type} {ends : Fault → Except Fault α → Prop}

/-- Whatever the answers are, the computation ends as is right for the fault that is on its way by
then. -/
def Tracks (ends : Fault → Except Fault α → Prop) : Fault → Step α → Prop
  | f, .ret a _ => ends f (.ok a)
  | f, .raise e _ => ends f (.error e)
  | f, .ask _ m k => ∀ r m', Balanced m m' → NoYield r → (k r m').Tracks ends (f.after r)

/-- An exit that is the answer to any of the questions is on its way from there. -/
def Transparent (ends : Fault → Except Fault α → Prop) : Step α → Prop
  | .ret _ _ => True
  | .raise _ _ => True
  | .ask _ m k => ∀ r m', Balanced m m' → NoYield r → (k r m').Transparent ends ∧
      ∀ status, r = .error (.exit status) → (k r m').Tracks ends (.exit status)

theorem Tracks.transparent {f : Fault} {s : Step α} (h : s.Tracks ends f) : s.Transparent ends := by
  induction s generalizing f with
  | ret a m => trivial
  | raise e m => trivial
  | ask q m k ih =>
    intro r m' hb hn
    have hk := h r m' hb hn
    refine ⟨ih r m' hk, ?_⟩
    rintro status rfl
    exact hk

theorem Tracks.bind {ends' : Fault → Except Fault β → Prop} {f : Fault} {s : Step α}
    {k : α → Machine → Step β} (h : s.Tracks Raised f)
    (he : ∀ f e, Raised (α := α) f (.error e) → ends' f (.error e)) : (s.bind k).Tracks ends' f := by
  induction s generalizing f with
  | ret a m =>
    obtain ⟨e, he, -⟩ := h
    cases he
  | raise e m => exact he f e h
  | ask q m k' ih => exact fun r m' hb hn => ih r m' (h r m' hb hn)

theorem raised_error (f e : Fault) (h : Raised (α := α) f (.error e)) :
    Raised (α := β) f (.error e) := by
  obtain ⟨e', he, hl⟩ := h
  cases he
  exact ⟨e, rfl, hl⟩

theorem Transparent.bind {s : Step α} {k : α → Machine → Step β} (h : s.Transparent Raised)
    (hk : ∀ a m, (k a m).Transparent Raised) : (s.bind k).Transparent Raised := by
  induction s with
  | ret a m => exact hk a m
  | raise e m => trivial
  | ask q m k' ih =>
    intro r m' hb hn
    obtain ⟨ht, he⟩ := h r m' hb hn
    exact ⟨ih r m' ht, fun status hr => (he status hr).bind raised_error⟩

theorem Tracks.raise {f : Fault} {s : Step Fault} (h : s.Tracks Found f) :
    (s.bind (Step.raise (α := α))).Tracks Raised f := by
  induction s generalizing f with
  | ret a m =>
    obtain ⟨e, he, hl⟩ := h
    cases he
    exact ⟨a, rfl, hl⟩
  | raise e m =>
    obtain ⟨e', he, -⟩ := h
    cases he
  | ask q m k ih => exact fun r m' hb hn => ih r m' (h r m' hb hn)

/-- An outcome that is handed on as it is. -/
def same : Except Fault α → Machine → Step α
  | .ok a, m => .ret a m
  | .error f, m => .raise f m

theorem handle_same (s : Step α) : s.handle same = s := by
  induction s with
  | ret a m => rfl
  | raise e m => rfl
  | ask q m k ih => simp only [handle, ih]

/-- An exit is raised again at once. -/
def Strict : Step α → Prop
  | .ret _ _ => True
  | .raise _ _ => True
  | .ask _ _ k => ∀ r m, (k r m).Strict ∧
      ∀ status, r = .error (.exit status) → k r m = .raise (.exit status) m

theorem Strict.transparent {s : Step α} (h : s.Strict) : s.Transparent Raised := by
  induction s with
  | ret a m => trivial
  | raise e m => trivial
  | ask q m k ih =>
    intro r m' _ _
    obtain ⟨hs, he⟩ := h r m'
    refine ⟨ih r m' hs, fun status hr => ?_⟩
    rw [he status hr]
    exact ⟨_, rfl, .refl _⟩

theorem Strict.bind {s : Step α} {k : α → Machine → Step β} (h : s.Strict)
    (hk : ∀ a m, (k a m).Strict) : (s.bind k).Strict := by
  induction s with
  | ret a m => exact hk a m
  | raise e m => trivial
  | ask q m k' ih =>
    intro r m'
    obtain ⟨hs, he⟩ := h r m'
    refine ⟨ih r m' hs, fun status hr => ?_⟩
    show (k' r m').bind k = _
    rw [he status hr, Step.bind]

theorem Strict.handle {s : Step α} {k : Except Fault α → Machine → Step β} (h : s.Strict)
    (hk : ∀ r m, (k r m).Strict) (he : ∀ status m, k (.error (.exit status)) m = .raise (.exit status) m) :
    (s.handle k).Strict := by
  induction s with
  | ret a m => exact hk _ m
  | raise e m => exact hk _ m
  | ask q m k' ih =>
    intro r m'
    obtain ⟨hs, hr⟩ := h r m'
    refine ⟨ih r m' hs, fun status hs => ?_⟩
    show (k' r m').handle k = _
    rw [hr status hs, Step.handle, he]

end Step

namespace Script

variable {α β : Type}

/-- A script that fails with an exit whenever one of its questions is answered by it. -/
def HandsOn : Script α → Prop
  | .done _ => True
  | .fail _ => True
  | .look k => ∀ m, (k m).HandsOn
  | .act _ k => ∀ v, (k v).HandsOn
  | .ask _ k => (∀ r, (k r).HandsOn) ∧
      ∀ status m, (k (.error (.exit status))).exec m = .raise (.exit status) m

theorem HandsOn.bind {s : Script α} {f : α → Script β} (hs : s.HandsOn) (hf : ∀ a, (f a).HandsOn) :
    (s.bind f).HandsOn := by
  induction s with
  | done a => exact hf a
  | fail e => trivial
  | look k ih => exact fun m => ih m (hs m)
  | act a k ih => exact fun v => ih v (hs v)
  | ask q k ih =>
    refine ⟨fun r => ih r (hs.1 r), fun status m => ?_⟩
    rw [exec_bind, hs.2 status m]
    rfl

theorem Plain.handsOn {s : Script α} (hs : s.Plain) : s.HandsOn := by
  induction s with
  | done a => trivial
  | fail e => trivial
  | look k ih => exact fun m => ih m (hs m)
  | act a k ih => exact fun v => ih v (hs v)
  | ask q k ih =>
    refine ⟨fun r => ?_, fun status m => ?_⟩
    · cases r with
      | ok reply => exact ih _ (hs.1 reply)
      | error f =>
        rw [hs.2 f]
        trivial
    · rw [hs.2 (.exit status)]
      rfl

theorem HandsOn.strict {s : Script α} (hs : s.HandsOn) (m : Machine) : (s.exec m).Strict := by
  induction s generalizing m with
  | done a => trivial
  | fail e => trivial
  | look k ih => exact ih m (hs m) m
  | act a k ih => exact ih _ (hs _) _
  | ask q k ih =>
    refine fun r m' => ⟨ih r (hs.1 r) m', ?_⟩
    rintro status rfl
    exact hs.2 status m'

end Script

namespace Exec

section

variable {β : Type} {ends : Fault → Except Fault β → Prop} {k : Except Fault Unit → Machine → Step β}
  {d : Nat}

theorem closeValues_tracks_some (vs : List Value) (error : Value) (f : Fault) {m : Machine}
    (hm : m.callDepth = d)
    (hk : ∀ e m', m'.callDepth = d → (k (.error e) m').Tracks ends e) :
    (((Script.closeValues error (some f) vs).exec m).handle k).Tracks ends f := by
  induction vs generalizing error f m with
  | nil => exact hk f m hm
  | cons v vs ih =>
    obtain ⟨m', hq, he⟩ | ⟨q, he⟩ := closeValues_cons error (some f) v vs m <;> rw [he]
    · exact ih error f ((Quiet.same_of_path hq).1.trans hm)
    · intro r m' hb hn
      have hm' := hb.callDepth_eq.trans hm
      cases r with
      | ok reply => exact ih error f hm'
      | error e => exact ih e.payload e hm'

/-- Without a failure the fault from before stays on its way. -/
theorem closeValues_tracks (vs : List Value) (error : Value) {f : Fault} {m : Machine}
    (hm : m.callDepth = d) (hok : ∀ m', m'.callDepth = d → (k (.ok ()) m').Tracks ends f)
    (hk : ∀ e m', m'.callDepth = d → (k (.error e) m').Tracks ends e) :
    (((Script.closeValues error none vs).exec m).handle k).Tracks ends f := by
  induction vs generalizing error m with
  | nil => exact hok m hm
  | cons v vs ih =>
    obtain ⟨m', hq, he⟩ | ⟨q, he⟩ := closeValues_cons error none v vs m <;> rw [he]
    · exact ih error ((Quiet.same_of_path hq).1.trans hm)
    · intro r m' hb hn
      have hm' := hb.callDepth_eq.trans hm
      cases r with
      | ok reply => exact ih error hm'
      | error e => exact closeValues_tracks_some vs e.payload e hm' hk

theorem closeValues_transparent (vs : List Value) (error : Value) {m : Machine}
    (hm : m.callDepth = d) (hok : ∀ m', m'.callDepth = d → (k (.ok ()) m').Transparent ends)
    (hk : ∀ e m', m'.callDepth = d → (k (.error e) m').Tracks ends e) :
    (((Script.closeValues error none vs).exec m).handle k).Transparent ends := by
  induction vs generalizing error m with
  | nil => exact hok m hm
  | cons v vs ih =>
    obtain ⟨m', hq, he⟩ | ⟨q, he⟩ := closeValues_cons error none v vs m <;> rw [he]
    · exact ih error ((Quiet.same_of_path hq).1.trans hm)
    · intro r m' hb hn
      have hm' := hb.callDepth_eq.trans hm
      cases r with
      | ok reply => exact ⟨ih error hm', fun _ hr => nomatch hr⟩
      | error e =>
        have ht : (((Script.closeValues e.payload (some e) vs).exec m').handle k).Tracks ends e :=
          closeValues_tracks_some vs e.payload e hm' hk
        refine ⟨ht.transparent, fun status hr => ?_⟩
        cases hr
        exact ht

end

theorem closeSlots_transparent (slots : List Nat) (error : Value) (m : Machine) :
    (closeSlots slots error m).Transparent Raised := by
  show ((Script.closeValues error none (slots.map m.arena.get)).exec m).Transparent Raised
  rw [← Step.handle_same ((Script.closeValues error none _).exec m)]
  exact closeValues_transparent _ error rfl (fun _ _ => trivial) fun e _ _ => ⟨e, rfl, .refl e⟩

/-- Taking the innermost frame off comes down to the handlers of its values. -/
theorem drop_eq {β : Type} (fault : Option Fault) (k : Except Fault Unit → Exec β) {m : Machine}
    (h : 0 < m.callDepth) : ∃ vs error m', m'.callDepth + 1 = m.callDepth ∧
      (popFrame >>= fun f => attempt (cleanup f fault) >>= k) m =
        ((Script.closeValues error none vs).exec m').handle k := by
  obtain ⟨f, calls, hp⟩ := pop?_of_lt h
  have hd := callDepth_of_pop hp
  rw [popFrame_bind_eq, hp]
  dsimp only
  rw [attempt_bind_eq, cleanup_eq]
  exact ⟨_, _, m.dropFrame f calls, hd.symm, rfl⟩

theorem unwindFrames_tracks (n : Nat) {f e : Fault} {m : Machine} (hl : f.Located e)
    (hn : n ≤ m.callDepth) : (unwindFrames n e m).Tracks Found f := by
  induction n generalizing f e m with
  | zero => exact ⟨e, rfl, hl⟩
  | succ n ih =>
    unfold unwindFrames
    obtain ⟨vs, error, m₁, hd, he⟩ := drop_eq (some e) _ (Nat.lt_of_lt_of_le n.succ_pos hn)
    rw [he]
    refine closeValues_tracks vs error rfl (fun m' hm' => ?_) fun e' m' hm' => ?_
    · exact ih hl (by omega)
    · show (unwindFrames n (m'.locate e') m').Tracks _ _
      exact ih ((Fault.Located.refl e').locate m') (by omega)

theorem unwind_tracks (stop : Nat) {f e : Fault} (m : Machine) (hl : f.Located e) :
    ((unwind stop e m).bind (Step.raise (α := Option (List Value)))).Tracks Raised f := by
  unfold unwind
  split
  · exact ⟨_, rfl, hl⟩
  · have hframes := unwindFrames_tracks (m.callDepth - stop) (hl.locate m) (Nat.sub_le _ _)
    exact hframes.raise

theorem closeFrames_tracks (n : Nat) (f : Fault) {m : Machine} (hn : n ≤ m.callDepth) :
    (closeFrames (some f) n m).Tracks Noted f := by
  induction n generalizing f m with
  | zero => exact ⟨f, .refl f, .inl rfl⟩
  | succ n ih =>
    unfold closeFrames
    obtain ⟨vs, error, m₁, hd, he⟩ := drop_eq none _ (Nat.lt_of_lt_of_le n.succ_pos hn)
    rw [he]
    refine closeValues_tracks vs error rfl (fun m' hm' => ?_) fun e' m' hm' => ?_
    · exact ih f (by omega)
    · exact ih e' (by omega)

theorem closeFrames_transparent (n : Nat) {m : Machine} (hn : n ≤ m.callDepth) :
    (closeFrames none n m).Transparent Noted := by
  induction n generalizing m with
  | zero => trivial
  | succ n ih =>
    unfold closeFrames
    obtain ⟨vs, error, m₁, hd, he⟩ := drop_eq none _ (Nat.lt_of_lt_of_le n.succ_pos hn)
    rw [he]
    refine closeValues_transparent vs error rfl (fun m' hm' => ?_) fun e' m' hm' => ?_
    · exact ih (by omega)
    · exact closeFrames_tracks n e' (by omega)

end Exec
end RegisterMachine
