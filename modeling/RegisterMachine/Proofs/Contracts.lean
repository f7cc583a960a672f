import RegisterMachine.Proofs.Changes

/-! Contracts of computations: what a computation keeps to from one question to the next, as long as the
answers keep to their part. -/
namespace RegisterMachine

/-- A contract has a path, which the machine keeps to between questions, what holds at every question,
and what the answers may be. -/
structure Contract where
  path : Machine → Machine → Prop
  asks : Machine → Prop
  answers : Machine → Except Fault Reply → Machine → Prop

namespace Step

variable {α β : Type} {C : Contract}

/-- A computation that goes on from a machine keeps to a contract, and comes to a certain end. -/
def Follows (C : Contract) (ends : Except Fault α → Machine → Prop) (m : Machine) : Step α → Prop
  | .ret a m' => C.path m m' ∧ ends (.ok a) m'
  | .raise f m' => C.path m m' ∧ ends (.error f) m'
  | .ask _ m' k => C.path m m' ∧ C.asks m' ∧
      ∀ r m'', C.answers m' r m'' → (k r m'').Follows C ends m''

theorem Follows.mono [IsTrans Machine C.path] {ends : Except Fault α → Machine → Prop} {s : Step α}
    {m m' : Machine} (h : C.path m m') (hs : s.Follows C ends m') : s.Follows C ends m := by
  cases s with
  | ret a _ => exact ⟨IsTrans.trans _ _ _ h hs.1, hs.2⟩
  | raise f _ => exact ⟨IsTrans.trans _ _ _ h hs.1, hs.2⟩
  | ask q _ k => exact ⟨IsTrans.trans _ _ _ h hs.1, hs.2⟩

/-- Less may be said of the questions and the end. -/
theorem Follows.imp {ends ends' : Except Fault α → Machine → Prop} {s : Step α} {m : Machine}
    (hs : s.Follows C ends m) (asks : Machine → Prop) (ha : ∀ m, C.asks m → asks m)
    (he : ∀ r m, ends r m → ends' r m) : s.Follows { C with asks } ends' m := by
  induction s generalizing m with
  | ret a m' => exact ⟨hs.1, he _ _ hs.2⟩
  | raise f m' => exact ⟨hs.1, he _ _ hs.2⟩
  | ask q m' k ih =>
    obtain ⟨hp, hq, hk⟩ := hs
    exact ⟨hp, ha _ hq, fun r m'' h => ih r m'' (hk r m'' h)⟩

theorem Follows.handle [IsTrans Machine C.path] {ends : Except Fault α → Machine → Prop}
    {ends' : Except Fault β → Machine → Prop} {s : Step α} {k : Except Fault α → Machine → Step β}
    {m : Machine} (hs : s.Follows C ends m) (hk : ∀ r m', ends r m' → (k r m').Follows C ends' m') :
    (s.handle k).Follows C ends' m := by
  induction s generalizing m with
  | ret a m' => exact (hk _ _ hs.2).mono hs.1
  | raise f m' => exact (hk _ _ hs.2).mono hs.1
  | ask q m' k' ih =>
    obtain ⟨hp, hq, hk'⟩ := hs
    exact ⟨hp, hq, fun r m'' h => ih r m'' (hk' r m'' h)⟩

theorem Follows.bind [IsTrans Machine C.path] {ends : Except Fault α → Machine → Prop}
    {ends' : Except Fault β → Machine → Prop} {s : Step α} {k : α → Machine → Step β} {m : Machine}
    (hs : s.Follows C ends m) (hk : ∀ a m', ends (.ok a) m' → (k a m').Follows C ends' m')
    (hf : ∀ f m', ends (.error f) m' → ends' (.error f) m') : (s.bind k).Follows C ends' m := by
  induction s generalizing m with
  | ret a m' => exact (hk _ _ hs.2).mono hs.1
  | raise f m' => exact ⟨hs.1, hf _ _ hs.2⟩
  | ask q m' k' ih =>
    obtain ⟨hp, hq, hk'⟩ := hs
    exact ⟨hp, hq, fun r m'' h => ih r m'' (hk' r m'' h)⟩

end Step

namespace Script

variable {α β : Type}

/-- A script is plain when it hands on the faults of its questions as they are, and fails with bare ones
itself. The operators and their metamethods are plain. -/
def Plain : Script α → Prop
  | .done _ => True
  | .fail f => f.isBare = true
  | .look k => ∀ m, (k m).Plain
  | .act _ k => ∀ v, (k v).Plain
  | .ask _ k => (∀ r, (k (.ok r)).Plain) ∧ ∀ f, k (.error f) = .fail f

theorem Plain.bind {s : Script α} {f : α → Script β} (hs : s.Plain) (hf : ∀ a, (f a).Plain) :
    (s.bind f).Plain := by
  induction s with
  | done a => exact hf a
  | fail f => exact hs
  | look k ih => exact fun m => ih m (hs m)
  | act a k ih => exact fun v => ih v (hs v)
  | ask q k ih =>
    refine ⟨fun r => ih _ (hs.1 r), fun f => ?_⟩
    show (k (.error f)).bind _ = _
    rw [hs.2 f]
    rfl

theorem Plain.map {s : Script α} (hs : s.Plain) (g : α → β) : (g <$> s).Plain :=
  hs.bind (f := fun a => .done (g a)) fun _ => trivial

theorem plain_question (q : Query) : (question q).Plain := ⟨fun _ => trivial, fun _ => rfl⟩

theorem plain_read (g : Machine → α) : (read g).Plain := fun _ => trivial

theorem plain_perform (a : Action) : (perform a).Plain := fun _ => trivial

theorem plain_make (a : Action) : (make a).Plain := fun _ => trivial

theorem plain_call (f : Value) (args : List Value) : (call f args).Plain :=
  (plain_question _).bind fun _ => trivial

theorem plain_callOne (f : Value) (args : List Value) : (callOne f args).Plain :=
  (plain_call f args).bind fun _ => trivial

theorem plain_binaryEvent (left right : Value) (event : String) {f : Fault} (hf : f.isBare = true) :
    (binaryEvent left right event f).Plain := by
  intro m
  dsimp only
  split
  · exact hf
  · exact plain_callOne _ _

theorem plain_unaryEvent (v : Value) (event : String) {s : Script Value} (hs : s.Plain) :
    (unaryEvent v event s).Plain := by
  refine (plain_read _).bind fun handler => ?_
  split
  · exact hs
  · exact plain_callOne _ _

end Script

namespace Heap

theorem isBare_of_accessAlong (h : Heap) (key : Value) {f : Fault} :
    ∀ (links : Nat) (object : Value), h.accessAlong key links object = .fault f → f.isBare = true := by
  intro links
  induction links with
  | zero =>
    intro object hf
    simp only [accessAlong, Access.fault.injEq] at hf
    exact hf ▸ rfl
  | succ links ih =>
    intro object hf
    unfold accessAlong at hf
    grind [Fault.isBare, Fault.typeError]

theorem isBare_of_assignmentAlong (h : Heap) (key : Value) {f : Fault} :
    ∀ (links : Nat) (object : Value),
      h.assignmentAlong key links object = .fault f → f.isBare = true := by
  intro links
  induction links with
  | zero =>
    intro object hf
    simp only [assignmentAlong, Assignment.fault.injEq] at hf
    exact hf ▸ rfl
  | succ links ih =>
    intro object hf
    unfold assignmentAlong at hf
    grind [Fault.isBare, Fault.typeError]

end Heap

namespace Script

theorem plain_index (object key : Value) : (index object key).Plain := by
  intro m
  dsimp only
  split
  · trivial
  · exact plain_callOne _ _
  · rename_i hf
    exact Heap.isBare_of_accessAlong _ _ _ _ hf

theorem plain_rawSet (r : Ref .table) (key v : Value) : (rawSet r key v).Plain := by
  unfold rawSet
  split
  · exact plain_perform _
  · rfl

theorem plain_setIndex (object key v : Value) : (setIndex object key v).Plain := by
  intro m
  dsimp only
  split
  · exact plain_rawSet _ _ _
  · exact (plain_call _ _).map _
  · rename_i hf
    exact Heap.isBare_of_assignmentAlong _ _ _ _ hf

end Script

theorem Number.isBare_of_toBits {n : Number} {f : Fault} (h : n.toBits = .error f) :
    f.isBare = true := by
  cases n with
  | int i => cases h
  | float x =>
    simp only [Number.toBits] at h
    split at h
    · cases h
    · cases h
      rfl

namespace Operator

theorem isBare_of_onInts {op : Operator} {x y : Int64} {f : Fault} (h : op.onInts x y = .error f) :
    f.isBare = true := by
  cases op <;> simp only [onInts, intMod, intDiv, reduceCtorEq] at h
  all_goals
    split at h
    · cases h
      rfl
    · cases h

theorem isBare_of_onNumbers {op : Operator} {a b : Number} {f : Fault}
    (h : op.onNumbers a b = .error f) : f.isBare = true := by
  unfold onNumbers at h
  split at h
  · cases ha : a.toBits with
    | error e =>
      rw [ha] at h
      cases h
      exact Number.isBare_of_toBits ha
    | ok x =>
      cases hb : b.toBits with
      | error e =>
        rw [ha, hb] at h
        cases h
        exact Number.isBare_of_toBits hb
      | ok y =>
        rw [ha, hb] at h
        exact isBare_of_onInts h
  · split at h
    · exact isBare_of_onInts h
    · cases h

theorem isBare_of_eval? {op : Operator} {a b : Value} {f : Fault} (h : op.eval? a b = .error f) :
    f.isBare = true := by
  unfold eval? at h
  split at h
  · rename_i x y _ _
    cases hn : op.onNumbers x y with
    | error e =>
      rw [hn] at h
      cases h
      exact isBare_of_onNumbers hn
    | ok n =>
      rw [hn] at h
      cases h
  · cases h

end Operator

theorem Value.isBare_of_complement? {v : Value} {f : Fault} (h : v.complement? = .error f) :
    f.isBare = true := by
  unfold complement? at h
  split at h
  · rename_i n _
    cases hn : n.toBits with
    | error e =>
      rw [hn] at h
      cases h
      exact Number.isBare_of_toBits hn
    | ok i =>
      rw [hn] at h
      cases h
  · cases h

namespace Script

theorem plain_arith (op : Operator) (left right : Value) : (arith op left right).Plain := by
  unfold arith
  split
  · rename_i hf
    exact Operator.isBare_of_eval? hf
  · trivial
  · exact plain_binaryEvent _ _ _ rfl

theorem plain_negate (v : Value) : (negate v).Plain := by
  unfold negate
  split
  · trivial
  · exact plain_unaryEvent _ _ rfl

theorem plain_complement (v : Value) : (complement v).Plain := by
  unfold complement
  split
  · rename_i hf
    exact Value.isBare_of_complement? hf
  · trivial
  · exact plain_unaryEvent _ _ rfl

theorem plain_length (v : Value) : (length v).Plain := by
  unfold length
  split
  · trivial
  · refine plain_unaryEvent _ _ ?_
    split
    · exact plain_read _
    · rfl

theorem plain_concatInto (run : List Value) (last : Value) (rest : List Value) :
    (concatInto run last rest).Plain := by
  induction rest generalizing run last with
  | nil => trivial
  | cons left rest ih =>
    unfold concatInto
    split
    · exact ih _ _
    · exact (plain_binaryEvent _ _ _ rfl).bind fun v => ih _ _

theorem plain_concat (vs : List Value) : (concat vs).Plain := by
  unfold concat
  split
  · trivial
  · exact plain_concatInto _ _ _

theorem plain_equals (left right : Value) : (equals left right).Plain := by
  unfold equals
  split
  · trivial
  · split
    · intro m
      dsimp only
      split
      · trivial
      · exact (plain_callOne _ _).map _
    · trivial

theorem plain_compareEvent (left right : Value) (event : String) :
    (compareEvent left right event).Plain :=
  (plain_binaryEvent _ _ _ rfl).map _

theorem plain_lessThan (left right : Value) : (lessThan left right).Plain := by
  unfold lessThan
  split
  · trivial
  · exact plain_compareEvent _ _ _

theorem plain_lessEqual (left right : Value) : (lessEqual left right).Plain := by
  unfold lessEqual
  split
  · trivial
  · exact plain_compareEvent _ _ _

end Script
end RegisterMachine
