import Mathlib.Logic.Function.Iterate
import RegisterMachine.Metatable
import RegisterMachine.Proofs.Contents

/-! Chains of handlers. A handler for fields that is no function is asked for the field in the place of the value
that it belongs to, and so on. Where that ends is said by the links of the chain: at the first one that does not
hand the field on, or nowhere within the bound. -/
namespace RegisterMachine

namespace Heap

def link (h : Heap) (event : String) (v : Value) (n : Nat) : Value := (h.metamethod · event)^[n] v

variable {h : Heap} {event : String} {P : Value → Prop} {key v : Value} {n links : Nat}

theorem link_succ : h.link event v (n + 1) = h.metamethod (h.link event v n) event :=
  Function.iterate_succ_apply' ..

/-- All links in front of one have a property. -/
def Along (h : Heap) (event : String) (P : Value → Prop) (v : Value) (n : Nat) : Prop :=
  ∀ i < n, P (h.link event v i)

theorem Along.of_succ (along : h.Along event P v (n + 1)) : h.Along event P v n ∧ P (h.link event v n) :=
  ⟨fun i hi => along i (Nat.lt_succ_of_lt hi), along n (Nat.lt_succ_self n)⟩

theorem along_or_exists (h : Heap) (event : String) (P : Value → Prop) (v : Value) (bound : Nat) :
    h.Along event P v bound ∨ ∃ n < bound, h.Along event P v n ∧ ¬P (h.link event v n) := by
  induction bound with
  | zero => exact .inl fun i hi => absurd hi (Nat.not_lt_zero i)
  | succ bound ih =>
    obtain along | ⟨n, hn, along, hlast⟩ := ih
    · by_cases hp : P (h.link event v bound)
      · exact .inl fun i hi => (Nat.lt_succ_iff_lt_or_eq.1 hi).elim (along i) fun he => he ▸ hp
      · exact .inr ⟨bound, Nat.lt_succ_self bound, along, hp⟩
    · exact .inr ⟨n, Nat.lt_succ_of_lt hn, along, hlast⟩

def field (h : Heap) (key : Value) : Value → Value
  | .table r => (h.table r).get key
  | _ => .nil

structure HandsOn (h : Heap) (event : String) (key v : Value) : Prop where
  missing : h.field key v = .nil
  handled : h.metamethod v event ≠ .nil
  noFunction : (h.metamethod v event).callee? = none

/-- Reading where there is neither the field nor a handler. -/
def absent : Value → Access
  | .table _ => .value .nil
  | v => .fault (.typeError "index" v)

/-- Assigning where the field goes no further. -/
def settled : Value → Assignment
  | .table r => .store r
  | v => .fault (.typeError "index" v)

theorem field_of_noTable (hv : ∀ r, v ≠ .table r) : h.field key v = .nil := field.eq_2 _ _ _ hv

theorem absent_of_noTable (hv : ∀ r, v ≠ .table r) : absent v = .fault (.typeError "index" v) :=
  absent.eq_2 _ hv

theorem settled_of_noTable (hv : ∀ r, v ≠ .table r) : settled v = .fault (.typeError "index" v) :=
  settled.eq_2 _ hv

theorem metamethod_table (event : String) {r mt : Ref .table} (hmt : (h.table r).metatable = some mt) :
    h.metamethod (.table r) event = (h.table mt).getStr event := by
  rw [metamethod, metatable?, hmt]

theorem metamethod_bare (event : String) {r : Ref .table} (hmt : (h.table r).metatable = none) :
    h.metamethod (.table r) event = .nil := by
  rw [metamethod, metatable?, hmt]

/-- What a link does when a field is read. -/
theorem accessAlong_succ : h.accessAlong key (links + 1) v =
    if h.field key v ≠ .nil then .value (h.field key v)
    else if h.metamethod v "__index" = .nil then absent v
    else if (h.metamethod v "__index").callee? = none then
      h.accessAlong key links (h.metamethod v "__index")
    else .handler (h.metamethod v "__index") v := by
  conv_lhs => unfold accessAlong
  split
  · rename_i r
    have hfield : (h.table r).get key = h.field key (.table r) := rfl
    simp only [hfield, Bool.not_eq_true', Value.isNil_eq_false_iff]
    obtain hmt | ⟨mt, hmt⟩ := Option.eq_none_or_eq_some (h.table r).metatable
    · rw [metamethod_bare _ hmt, hmt, if_pos rfl]
      rfl
    · rw [metamethod_table _ hmt, hmt]
      dsimp only
      generalize (h.table mt).getStr "__index" = handler
      cases handler <;> simp [absent, Value.callee?]
  · rename_i hv
    rw [field_of_noTable hv, if_neg fun h => h rfl, absent_of_noTable hv]
    cases h.metamethod v "__index" <;> simp [Value.callee?]

/-- What a link does when a field is assigned. -/
theorem assignmentAlong_succ : h.assignmentAlong key (links + 1) v =
    if h.field key v ≠ .nil ∨ h.metamethod v "__newindex" = .nil then settled v
    else if (h.metamethod v "__newindex").callee? = none then
      h.assignmentAlong key links (h.metamethod v "__newindex")
    else .handler (h.metamethod v "__newindex") v := by
  conv_lhs => unfold assignmentAlong
  split
  · rename_i r
    have hfield : (h.table r).get key = h.field key (.table r) := rfl
    simp only [hfield, Bool.not_eq_true', Value.isNil_eq_false_iff]
    by_cases hraw : h.field key (.table r) = .nil
    · simp only [hraw, ne_eq, not_true_eq_false, if_false, false_or]
      obtain hmt | ⟨mt, hmt⟩ := Option.eq_none_or_eq_some (h.table r).metatable
      · rw [metamethod_bare _ hmt, hmt]
        rfl
      · obtain ⟨handler, hh⟩ : ∃ handler, (h.table mt).getStr "__newindex" = handler := ⟨_, rfl⟩
        simp only [metamethod_table _ hmt, hmt, hh]
        cases handler <;> simp [settled, Value.callee?, Value.isNil]
    · rw [if_pos hraw, if_pos (Or.inl hraw)]
      rfl
  · rename_i hv
    simp only [field_of_noTable hv, ne_eq, not_true_eq_false, false_or, settled_of_noTable hv]
    cases h.metamethod v "__newindex" <;> simp [Value.callee?]

theorem accessAlong_of_handsOn (links : Nat) (w : Value) (hands : h.HandsOn "__index" key w) :
    h.accessAlong key (links + 1) w = h.accessAlong key links (h.metamethod w "__index") := by
  rw [accessAlong_succ, if_neg (not_not.2 hands.missing), if_neg hands.handled, if_pos hands.noFunction]

theorem assignmentAlong_of_handsOn (links : Nat) (w : Value) (hands : h.HandsOn "__newindex" key w) :
    h.assignmentAlong key (links + 1) w = h.assignmentAlong key links (h.metamethod w "__newindex") := by
  have hnone : ¬(h.field key w ≠ .nil ∨ h.metamethod w "__newindex" = .nil) :=
    fun hor => hor.elim (fun hne => hne hands.missing) hands.handled
  rw [assignmentAlong_succ, if_neg hnone, if_pos hands.noFunction]

section

variable {α : Type} {follow : Nat → Value → α}

/-- The links that hand the field on are passed. By induction on them, the last one of which is passed last. -/
theorem follow_of_along
    (hstep : ∀ links w, h.HandsOn event key w → follow (links + 1) w = follow links (h.metamethod w event))
    (links : Nat) (along : h.Along event (h.HandsOn event key) v n) :
    follow (links + n) v = follow links (h.link event v n) := by
  induction n generalizing links with
  | zero => rfl
  | succ n ih =>
    obtain ⟨front, hands⟩ := along.of_succ
    rw [link_succ, ← hstep links _ hands, ← ih (links + 1) front, Nat.add_comm n 1, Nat.add_assoc]

/-- A link of a chain that is reached within the bound. -/
structure Reached (h : Heap) (event : String) (key v : Value) (n : Nat) : Prop where
  bound : n < maxFieldLinks
  along : h.Along event (h.HandsOn event key) v n

theorem Reached.follow_eq (reached : h.Reached event key v n)
    (hstep : ∀ links w, h.HandsOn event key w → follow (links + 1) w = follow links (h.metamethod w event)) :
    ∃ links, follow maxFieldLinks v = follow (links + 1) (h.link event v n) := by
  obtain ⟨links, hlinks⟩ := Nat.exists_eq_add_of_lt reached.bound
  refine ⟨links, ?_⟩
  rw [← follow_of_along hstep (links + 1) reached.along, hlinks, Nat.add_comm n links, Nat.add_right_comm]

theorem follow_of_endless
    (hstep : ∀ links w, h.HandsOn event key w → follow (links + 1) w = follow links (h.metamethod w event))
    (along : h.Along event (h.HandsOn event key) v maxFieldLinks) :
    follow maxFieldLinks v = follow 0 (h.link event v maxFieldLinks) := by
  have heq := follow_of_along hstep 0 along
  rwa [Nat.zero_add] at heq

end

theorem Reached.access_eq (reached : h.Reached "__index" key v n) :
    ∃ links, h.access v key = h.accessAlong key (links + 1) (h.link "__index" v n) :=
  reached.follow_eq accessAlong_of_handsOn

theorem Reached.assignment_eq (reached : h.Reached "__newindex" key v n) :
    ∃ links, h.assignment v key = h.assignmentAlong key (links + 1) (h.link "__newindex" v n) :=
  reached.follow_eq assignmentAlong_of_handsOn

theorem access_of_endless (along : h.Along "__index" (h.HandsOn "__index" key) v maxFieldLinks) :
    h.access v key = .fault (.runtime (.chainTooLong "__index")) :=
  follow_of_endless accessAlong_of_handsOn along

theorem assignment_of_endless (along : h.Along "__newindex" (h.HandsOn "__newindex" key) v maxFieldLinks) :
    h.assignment v key = .fault (.runtime (.chainTooLong "__newindex")) :=
  follow_of_endless assignmentAlong_of_handsOn along

end Heap

namespace Table

theorem metatable_migrate (n : Nat) (t : Table) : (t.migrate n).metatable = t.metatable := by
  induction n generalizing t with
  | zero => rfl
  | succ n ih =>
    rw [migrate_succ]
    split_ifs
    · rfl
    · rfl
    · exact ih _

theorem metatable_setKey (t : Table) (k : Key) (v : Value) : (t.setKey k v).metatable = t.metatable := by
  obtain ⟨n, -, heq⟩ | ⟨-, -, heq⟩ | ⟨-, -, heq⟩ := setKey_cases t k v <;> rw [heq]
  exact metatable_migrate _ _

end Table

/-- A field of one table was assigned, and nothing else was. A table in order stays so, and reads as before at all
other keys. -/
structure Machine.Stored (r : Ref .table) (k : Key) (v : Value) (m m' : Machine) : Prop where
  only : m' = m.modifyHeap (·.modifyTable r (·.setKey k v))
  others : ∀ q, q ≠ r → m'.heap.tables.get? q = m.heap.tables.get? q
  table : ∀ t, m.heap.tables.get? r = some t → m'.heap.tables.get? r = some (t.setKey k v) ∧
    (t.setKey k v).metatable = t.metatable ∧
    (t.Neat →
      (t.setKey k v).Neat ∧ ∀ k', (t.setKey k v).getKey k' = if k' = k then v else t.getKey k')

theorem Machine.stored_setKey (m : Machine) (r : Ref .table) (k : Key) (v : Value) :
    Stored r k v m (m.modifyHeap (·.modifyTable r (·.setKey k v))) where
  only := rfl
  others _ hne := Store.get?_modify_of_ne _ hne.symm _
  table t ht := ⟨(Store.get?_modify_self ..).trans (congrArg _ ht), t.metatable_setKey k v,
    fun neat => neat.setKey k v⟩

namespace Script

variable {m : Machine} {object key v : Value}

def firstResult : Except Fault Reply → Machine → Step Value
  | .ok r, m => .ret (r.values.headD .nil) m
  | .error f, m => .raise f m

def noResult : Except Fault Reply → Machine → Step Unit
  | .ok _, m => .ret () m
  | .error f, m => .raise f m

theorem exec_callOne (f : Value) (args : List Value) : (callOne f args).exec m = .ask (.call f args) m firstResult := by
  refine congrArg (Step.ask _ m) (funext fun r => funext fun m' => ?_)
  cases r <;> rfl

theorem exec_discard_call (f : Value) (args : List Value) :
    (discard (call f args)).exec m = .ask (.call f args) m noResult := by
  refine congrArg (Step.ask _ m) (funext fun r => funext fun m' => ?_)
  cases r <;> rfl

/-- What reading a field comes to: where its chain ends, or that it has no end within the bound. -/
inductive Reads (m : Machine) (object key : Value) : Step Value → Prop
  | found {n : Nat} : m.heap.Reached "__index" key object n →
      m.heap.field key (m.heap.link "__index" object n) ≠ .nil →
      Reads m object key (.ret (m.heap.field key (m.heap.link "__index" object n)) m)
  | missing {n : Nat} {r : Ref .table} : m.heap.Reached "__index" key object n →
      m.heap.link "__index" object n = .table r → m.heap.field key (.table r) = .nil →
      m.heap.metamethod (.table r) "__index" = .nil → Reads m object key (.ret .nil m)
  | called {n : Nat} {holder : Value} : m.heap.Reached "__index" key object n →
      m.heap.link "__index" object n = holder → m.heap.field key holder = .nil →
      (m.heap.metamethod holder "__index").callee? ≠ none →
      Reads m object key (.ask (.call (m.heap.metamethod holder "__index") [holder, key]) m firstResult)
  | refused {n : Nat} {v : Value} : m.heap.Reached "__index" key object n →
      m.heap.link "__index" object n = v → (∀ r, v ≠ .table r) → m.heap.metamethod v "__index" = .nil →
      Reads m object key (.raise (.typeError "index" v) m)
  | endless : m.heap.Along "__index" (m.heap.HandsOn "__index" key) object maxFieldLinks →
      Reads m object key (.raise (.runtime (.chainTooLong "__index")) m)

/-- What assigning a field comes to. A function is called for the value that has it as its handler; else the first
table that has the field already or no handler is assigned, if the key is one. -/
inductive Assigns (m : Machine) (object key v : Value) : Step Unit → Prop
  | stored {n : Nat} {r : Ref .table} {k : Key} {m' : Machine} : m.heap.Reached "__newindex" key object n →
      m.heap.link "__newindex" object n = .table r →
      m.heap.field key (.table r) ≠ .nil ∨ m.heap.metamethod (.table r) "__newindex" = .nil →
      Key.ofValue key = .ok k → m.Stored r k v m' → Assigns m object key v (.ret () m')
  | noKey {n : Nat} {r : Ref .table} {f : KeyFault} : m.heap.Reached "__newindex" key object n →
      m.heap.link "__newindex" object n = .table r →
      m.heap.field key (.table r) ≠ .nil ∨ m.heap.metamethod (.table r) "__newindex" = .nil →
      Key.ofValue key = .error f → Assigns m object key v (.raise (.ofKeyFault f) m)
  | called {n : Nat} {holder : Value} : m.heap.Reached "__newindex" key object n →
      m.heap.link "__newindex" object n = holder → m.heap.field key holder = .nil →
      (m.heap.metamethod holder "__newindex").callee? ≠ none →
      Assigns m object key v
        (.ask (.call (m.heap.metamethod holder "__newindex") [holder, key, v]) m noResult)
  | refused {n : Nat} {w : Value} : m.heap.Reached "__newindex" key object n →
      m.heap.link "__newindex" object n = w → (∀ r, w ≠ .table r) → m.heap.metamethod w "__newindex" = .nil →
      Assigns m object key v (.raise (.typeError "index" w) m)
  | endless : m.heap.Along "__newindex" (m.heap.HandsOn "__newindex" key) object maxFieldLinks →
      Assigns m object key v (.raise (.runtime (.chainTooLong "__newindex")) m)

/-- The step that follows from where a read leads. -/
def ofAccess (key : Value) (m : Machine) : Access → Step Value
  | .value v => .ret v m
  | .handler f holder => .ask (.call f [holder, key]) m firstResult
  | .fault f => .raise f m

theorem exec_index : (index object key).exec m = ofAccess key m (m.heap.access object key) := by
  rw [index, exec]
  cases m.heap.access object key with
  | value v => rfl
  | handler f holder => exact exec_callOne f [holder, key]
  | fault f => rfl

/-- The step that follows from where an assignment leads. -/
def ofAssignment (key v : Value) (m : Machine) : Assignment → Step Unit
  | .store r => (rawSet r key v).exec m
  | .handler f holder => .ask (.call f [holder, key, v]) m noResult
  | .fault f => .raise f m

theorem exec_setIndex : (setIndex object key v).exec m = ofAssignment key v m (m.heap.assignment object key) := by
  rw [setIndex, exec]
  cases m.heap.assignment object key with
  | store r => rfl
  | handler f holder => exact exec_discard_call f [holder, key, v]
  | fault f => rfl

theorem Reads.exec_eq {s : Step Value} (reads : Reads m object key s) : (index object key).exec m = s := by
  rw [exec_index]
  cases reads with
  | found reached hfield =>
    obtain ⟨links, heq⟩ := reached.access_eq
    rw [heq, Heap.accessAlong_succ, if_pos hfield, ofAccess]
  | missing reached hlink hfield hhandler =>
    obtain ⟨links, heq⟩ := reached.access_eq
    rw [heq, hlink, Heap.accessAlong_succ, if_neg (not_not.2 hfield), if_pos hhandler]
    rfl
  | called reached hlink hfield hcallee =>
    obtain ⟨links, heq⟩ := reached.access_eq
    have hhandler : m.heap.metamethod _ "__index" ≠ .nil := fun hnil => hcallee (hnil ▸ rfl)
    rw [heq, hlink, Heap.accessAlong_succ, if_neg (not_not.2 hfield), if_neg hhandler, if_neg hcallee, ofAccess]
  | refused reached hlink hv hhandler =>
    obtain ⟨links, heq⟩ := reached.access_eq
    rw [heq, hlink, Heap.accessAlong_succ, if_neg (not_not.2 (Heap.field_of_noTable hv)), if_pos hhandler,
      Heap.absent_of_noTable hv, ofAccess]
  | endless along => rw [Heap.access_of_endless along, ofAccess]

theorem reads_total (m : Machine) (object key : Value) : ∃ s, Reads m object key s := by
  obtain along | ⟨n, hn, along, hlast⟩ :=
    m.heap.along_or_exists "__index" (m.heap.HandsOn "__index" key) object maxFieldLinks
  · exact ⟨_, .endless along⟩
  obtain ⟨holder, hlink⟩ : ∃ holder, m.heap.link "__index" object n = holder := ⟨_, rfl⟩
  rw [hlink] at hlast
  by_cases hfield : m.heap.field key holder = .nil
  · by_cases hhandler : m.heap.metamethod holder "__index" = .nil
    · by_cases htable : ∃ r, holder = .table r
      · obtain ⟨r, rfl⟩ := htable
        exact ⟨_, .missing ⟨hn, along⟩ hlink hfield hhandler⟩
      · exact ⟨_, .refused ⟨hn, along⟩ hlink (fun r hr => htable ⟨r, hr⟩) hhandler⟩
    · exact ⟨_, .called ⟨hn, along⟩ hlink hfield fun hnone => hlast ⟨hfield, hhandler, hnone⟩⟩
  · subst hlink
    exact ⟨_, .found ⟨hn, along⟩ hfield⟩

theorem Assigns.exec_eq {s : Step Unit} (assigns : Assigns m object key v s) :
    (setIndex object key v).exec m = s := by
  rw [exec_setIndex]
  cases assigns with
  | stored reached hlink hends hkey hstored =>
    obtain ⟨links, heq⟩ := reached.assignment_eq
    rw [heq, hlink, Heap.assignmentAlong_succ, if_pos hends, Heap.settled, ofAssignment, rawSet, hkey, hstored.only]
    rfl
  | noKey reached hlink hends hkey =>
    obtain ⟨links, heq⟩ := reached.assignment_eq
    rw [heq, hlink, Heap.assignmentAlong_succ, if_pos hends, Heap.settled, ofAssignment, rawSet, hkey]
    rfl
  | called reached hlink hfield hcallee =>
    obtain ⟨links, heq⟩ := reached.assignment_eq
    have hnone : ¬(m.heap.field key _ ≠ .nil ∨ m.heap.metamethod _ "__newindex" = .nil) := fun hor =>
      hor.elim (fun hne => hne hfield) fun hnil => hcallee (hnil ▸ rfl)
    rw [heq, hlink, Heap.assignmentAlong_succ, if_neg hnone, if_neg hcallee, ofAssignment]
  | refused reached hlink hw hhandler =>
    obtain ⟨links, heq⟩ := reached.assignment_eq
    rw [heq, hlink, Heap.assignmentAlong_succ, if_pos (Or.inr hhandler), Heap.settled_of_noTable hw, ofAssignment]
  | endless along => rw [Heap.assignment_of_endless along, ofAssignment]

theorem assigns_total (m : Machine) (object key v : Value) : ∃ s, Assigns m object key v s := by
  obtain along | ⟨n, hn, along, hlast⟩ :=
    m.heap.along_or_exists "__newindex" (m.heap.HandsOn "__newindex" key) object maxFieldLinks
  · exact ⟨_, .endless along⟩
  obtain ⟨holder, hlink⟩ : ∃ holder, m.heap.link "__newindex" object n = holder := ⟨_, rfl⟩
  rw [hlink] at hlast
  by_cases hends : m.heap.field key holder ≠ .nil ∨ m.heap.metamethod holder "__newindex" = .nil
  · by_cases htable : ∃ r, holder = .table r
    · obtain ⟨r, rfl⟩ := htable
      cases hkey : Key.ofValue key with
      | ok k => exact ⟨_, .stored ⟨hn, along⟩ hlink hends hkey (m.stored_setKey r k v)⟩
      | error f => exact ⟨_, .noKey ⟨hn, along⟩ hlink hends hkey⟩
    · have hv : ∀ r, holder ≠ .table r := fun r hr => htable ⟨r, hr⟩
      have hhandler := hends.resolve_left (not_not.2 (Heap.field_of_noTable hv))
      exact ⟨_, .refused ⟨hn, along⟩ hlink hv hhandler⟩
  · obtain ⟨hfield, hhandler⟩ := not_or.1 hends
    exact ⟨_, .called ⟨hn, along⟩ hlink (not_not.1 hfield) fun hnone =>
      hlast ⟨not_not.1 hfield, hhandler, hnone⟩⟩

/-- Reading and assigning a field come to what the chain of its handlers says, and to nothing else; a fault that
comes without a call leaves the machine as it was. -/
theorem fields_resolved (m : Machine) (object key v : Value) :
    (∀ s, (index object key).exec m = s ↔ Reads m object key s) ∧
    (∀ s, (setIndex object key v).exec m = s ↔ Assigns m object key v s) ∧
    (∀ f m', (index object key).exec m = .raise f m' → m' = m) ∧
    ∀ f m', (setIndex object key v).exec m = .raise f m' → m' = m := by
  have hreads : ∀ s, (index object key).exec m = s ↔ Reads m object key s := by
    refine fun s => ⟨fun heq => ?_, Reads.exec_eq⟩
    obtain ⟨s', reads⟩ := reads_total m object key
    exact reads.exec_eq.symm.trans heq ▸ reads
  have hassigns : ∀ s, (setIndex object key v).exec m = s ↔ Assigns m object key v s := by
    refine fun s => ⟨fun heq => ?_, Assigns.exec_eq⟩
    obtain ⟨s', assigns⟩ := assigns_total m object key v
    exact assigns.exec_eq.symm.trans heq ▸ assigns
  refine ⟨hreads, hassigns, fun f m' hraise => ?_, fun f m' hraise => ?_⟩
  · cases (hreads _).1 hraise <;> rfl
  · cases (hassigns _).1 hraise <;> rfl

end Script
end RegisterMachine
