import Mathlib.Logic.Relation
import RegisterMachine.Machine.Heap

/-! Cancellation tokens. What was done with tokens in order says all about them: which one was made under
which, and which were cancelled. A token counts as cancelled when it or one above it was cancelled, and
nothing that is done later makes a difference to that. -/
namespace RegisterMachine

inductive TokenOp
  | new
  | child (parent : Ref .token)
  | cancel (r : Ref .token)
  deriving DecidableEq, Repr

namespace TokenOp

def apply (st : Store .token Token) : TokenOp → Store .token Token
  | .new => (st.alloc {}).2
  | .child parent => (st.alloc { parent := some parent }).2
  | .cancel r => st.cancel r

/-- Whether the token it is about is there. -/
def Fits (st : Store .token Token) : TokenOp → Prop
  | .new => True
  | .child r => r.index < st.items.size
  | .cancel r => r.index < st.items.size

def made? : TokenOp → Option (Option (Ref .token))
  | .new => some none
  | .child parent => some (some parent)
  | .cancel _ => none

def lineage (ops : List TokenOp) : List (Option (Ref .token)) := ops.filterMap made?

@[simp]
theorem lineage_append (ops more : List TokenOp) : lineage (ops ++ more) = lineage ops ++ lineage more :=
  List.filterMap_append

@[simp]
theorem lineage_new : lineage [.new] = [none] := rfl

@[simp]
theorem lineage_child (parent : Ref .token) : lineage [.child parent] = [some parent] := rfl

@[simp]
theorem lineage_cancel (r : Ref .token) : lineage [.cancel r] = [] := rfl

end TokenOp

def Under (parents : List (Option (Ref .token))) : Ref .token → Ref .token → Prop :=
  Relation.ReflTransGen fun r p => parents[r.index]? = some (some p)

namespace Under

variable {parents : List (Option (Ref .token))} {r a : Ref .token}

/-- What is there about a token or one above it is there about the token, or above its parent. -/
theorem exists_iff {P : Ref .token → Prop} :
    (∃ a, Under parents r a ∧ P a) ↔
      P r ∨ ∃ p, parents[r.index]? = some (some p) ∧ ∃ a, Under parents p a ∧ P a := by
  constructor
  · rintro ⟨a, h, ha⟩
    obtain rfl | ⟨p, hp, h⟩ := Relation.ReflTransGen.cases_head h
    · exact .inl ha
    · exact .inr ⟨p, hp, a, h, ha⟩
  · rintro (hr | ⟨p, hp, a, h, ha⟩)
    · exact ⟨r, .refl, hr⟩
    · exact ⟨a, .head hp h, ha⟩

theorem append (h : Under parents r a) (more : List (Option (Ref .token))) :
    Under (parents ++ more) r a := by
  refine h.lift id fun q p hp => ?_
  obtain ⟨hlt, -⟩ := List.getElem?_eq_some_iff.1 hp
  show (parents ++ more)[q.index]? = _
  rwa [List.getElem?_append_left hlt]

end Under

namespace Store

/-- The tokens that are there after what was done in order. -/
inductive Made : List TokenOp → Store .token Token → Prop
  | nil : Made [] {}
  | snoc {ops : List TokenOp} {st : Store .token Token} (op : TokenOp) :
      Made ops st → op.Fits st → Made (ops ++ [op]) (op.apply st)

def parents (st : Store .token Token) : List (Option (Ref .token)) := st.items.toList.map Token.parent

namespace Made

open TokenOp (lineage)

variable {ops : List TokenOp} {st : Store .token Token} {r p : Ref .token}

theorem size_eq (h : Made ops st) : st.items.size = (lineage ops).length := by
  induction h with
  | nil => rfl
  | @snoc ops st op _ _ ih =>
    cases op <;> simpa [TokenOp.apply, Store.cancel, modify, alloc] using ih

theorem lt_of_mem (h : Made ops st) (mem : .cancel r ∈ ops) : r.index < st.items.size := by
  induction h with
  | nil => cases mem
  | @snoc ops st op _ fits ih =>
    have grown : st.items.size ≤ (op.apply st).items.size := by
      cases op <;> simp [TokenOp.apply, Store.cancel, modify, alloc]
    obtain mem | mem := List.mem_append.1 mem
    · exact Nat.lt_of_lt_of_le (ih mem) grown
    · obtain rfl := List.mem_singleton.1 mem
      exact Nat.lt_of_lt_of_le fits grown

theorem parent_lt (h : Made ops st) {i : Nat} (hp : (lineage ops)[i]? = some (some p)) : p.index < i := by
  induction h with
  | nil => cases hp
  | @snoc ops st op made fits ih =>
    rw [TokenOp.lineage_append, List.getElem?_append] at hp
    split at hp
    · exact ih hp
    · rename_i later
      cases op with
      | new =>
        rw [TokenOp.lineage_new, List.getElem?_singleton] at hp
        simp at hp
      | child q =>
        rw [TokenOp.lineage_child, List.getElem?_singleton] at hp
        obtain ⟨-, same⟩ := Option.ite_none_right_eq_some.1 hp
        obtain rfl : q = p := by simpa using same
        have fits : q.index < st.items.size := fits
        rw [made.size_eq] at fits
        omega
      | cancel q => simp at hp

/-- A new token behind those of a store. -/
theorem get?_new (h : Made ops st) {op : TokenOp} {parent : Option (Ref .token)}
    (hop : op.made? = some parent) (happly : op.apply st = (st.alloc { parent }).2)
    (ih : st.get? r = (lineage ops)[r.index]?.map fun p => ⟨decide (.cancel r ∈ ops), p⟩) :
    (op.apply st).get? r =
      (lineage (ops ++ [op]))[r.index]?.map fun p => ⟨decide (.cancel r ∈ ops ++ [op]), p⟩ := by
  have other : TokenOp.cancel r ≠ op := by
    rintro rfl
    cases hop
  have single : lineage [op] = [parent] := by rw [TokenOp.lineage, List.filterMap_cons, hop]; rfl
  have get : (op.apply st).get? r = if r.index = st.items.size then some { parent } else st.get? r := by
    rw [happly]
    exact Array.getElem?_push
  rw [get, TokenOp.lineage_append, single]
  split
  · rename_i last
    -- nothing was done with it before
    have never : .cancel r ∉ ops := fun mem => by
      have := h.lt_of_mem mem
      omega
    rw [last, h.size_eq, List.getElem?_concat_length]
    simp [never, other]
  · rename_i before
    rw [h.size_eq] at before
    by_cases old : r.index < (lineage ops).length
    · simp [ih, List.getElem?_append_left old, other]
    · have absent : (lineage ops)[r.index]? = none := List.getElem?_eq_none (by omega)
      have absent' : (lineage ops ++ [parent])[r.index]? = none :=
        List.getElem?_eq_none (by simp only [List.length_append, List.length_singleton]; omega)
      rw [ih, absent, absent']
      rfl

theorem get?_eq (h : Made ops st) (r : Ref .token) :
    st.get? r = (lineage ops)[r.index]?.map fun p => ⟨decide (.cancel r ∈ ops), p⟩ := by
  induction h with
  | nil => rfl
  | @snoc ops st op made _ ih =>
    cases op with
    | new => exact made.get?_new rfl rfl ih
    | child parent => exact made.get?_new rfl rfl ih
    | cancel q =>
      rw [TokenOp.lineage_append, TokenOp.lineage_cancel, List.append_nil]
      by_cases same : r = q
      · subst same
        show (st.modify r _).get? r = _
        rw [get?_modify_self, ih]
        simp [Function.comp_def]
      · show (st.modify q _).get? r = _
        rw [get?_modify_of_ne _ (Ne.symm same), ih]
        simp [same]

theorem parents_eq (h : Made ops st) : st.parents = lineage ops := by
  refine List.ext_getElem? fun i => ?_
  have get : st.items[i]? = _ := h.get?_eq ⟨i⟩
  rw [Store.parents, List.getElem?_map, Array.getElem?_toList, get]
  cases (lineage ops)[i]? <;> rfl

theorem isCancelledAt_iff (h : Made ops st) {n : Nat} (enough : r.index < n) :
    st.isCancelledAt n r = true ↔ ∃ a, Under (lineage ops) r a ∧ .cancel a ∈ ops := by
  induction n generalizing r with
  | zero => cases enough
  | succ n ih =>
    rw [isCancelledAt, h.get?_eq, Under.exists_iff]
    cases hr : (lineage ops)[r.index]? with
    | none =>
      have never : .cancel r ∉ ops := fun mem => by
        have := h.lt_of_mem mem
        rw [h.size_eq] at this
        have := List.getElem?_eq_none_iff.1 hr
        omega
      simp [never]
    | some parent =>
      cases parent with
      | none => simp
      | some p =>
        -- the way up gets shorter, since the parent was made before
        have shorter := h.parent_lt hr
        simp [ih (r := p) (by omega)]

theorem isCancelled_iff (h : Made ops st) (r : Ref .token) :
    st.isCancelled r = true ↔ ∃ a, Under (lineage ops) r a ∧ .cancel a ∈ ops :=
  h.isCancelledAt_iff (Nat.lt_succ_self _)

variable {more : List TokenOp} {st' : Store .token Token}

/-- Whatever is done later, a token stays cancelled, and so is all that is made under it. -/
theorem isCancelled_of_under (h : Made ops st) (h' : Made (ops ++ more) st') {t : Ref .token}
    (cancelled : st.isCancelled t = true) (below : Under st'.parents r t) :
    st'.isCancelled r = true := by
  obtain ⟨a, above, mem⟩ := (h.isCancelled_iff t).1 cancelled
  have above' : Under (lineage (ops ++ more)) t a := by
    rw [TokenOp.lineage_append]
    exact above.append _
  rw [h'.parents_eq] at below
  exact (h'.isCancelled_iff r).2 ⟨a, below.trans above', List.mem_append_left more mem⟩

end Made
end Store
end RegisterMachine
