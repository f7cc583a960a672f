import Mathlib.Data.List.Nodup
import RegisterMachine.Prototype

/-! Constants keep their identity in a pool. Constants count as the same only if they are one value: of one kind, and
doubles with the same bits. So a pool holds no value twice, and an index goes on reading the value that it was given
for, however many constants come behind. -/
namespace RegisterMachine

theorem Value.sameConstant_iff (a b : Value) : a.sameConstant b = true ↔ a = b := by
  cases a <;> cases b <;> simp [sameConstant, rawEqual]

namespace Prototype

variable {pool : Array Value} {v : Value} {vs : List Value}

/-- The ways to intern a constant: it is there, or it comes behind all others. -/
theorem intern_cases (pool : Array Value) (v : Value) :
    (∃ n, pool[n]? = some v ∧ intern pool v = (n, pool)) ∨
      (v ∉ pool.toList ∧ intern pool v = (pool.size, pool.push v)) := by
  rw [intern]
  split
  · rename_i n found
    obtain ⟨bound, same, -⟩ := Array.findIdx?_eq_some_iff_getElem.1 found
    refine .inl ⟨n, ?_, rfl⟩
    rw [Array.getElem?_eq_getElem bound, (Value.sameConstant_iff _ _).1 same]
  · rename_i absent
    refine .inr ⟨fun mem => ?_, rfl⟩
    have differs := Array.findIdx?_eq_none_iff.1 absent v (Array.mem_toList_iff.1 mem)
    rw [(Value.sameConstant_iff v v).2 rfl] at differs
    cases differs

theorem get_intern (pool : Array Value) (v : Value) : (intern pool v).2[(intern pool v).1]? = some v := by
  obtain ⟨n, there, eq⟩ | ⟨-, eq⟩ := intern_cases pool v <;> rw [eq]
  · exact there
  · exact Array.getElem?_push_size

theorem nodup_intern (nodup : pool.toList.Nodup) (v : Value) : (intern pool v).2.toList.Nodup := by
  obtain ⟨n, -, eq⟩ | ⟨absent, eq⟩ := intern_cases pool v <;> rw [eq]
  · exact nodup
  · rw [Array.toList_push, List.nodup_append_comm]
    exact List.nodup_cons.2 ⟨absent, nodup⟩

theorem prefix_intern (pool : Array Value) (v : Value) : pool.toList <+: (intern pool v).2.toList := by
  obtain ⟨n, -, eq⟩ | ⟨-, eq⟩ := intern_cases pool v
  · simp only [eq, List.prefix_refl]
  · simp only [eq, Array.toList_push, List.prefix_append]

/-- The indices of constants that are interned in turn, and the pool with them. -/
def internAll (pool : Array Value) : List Value → List Nat × Array Value
  | [] => ([], pool)
  | v :: vs =>
    let (n, pool) := intern pool v
    let (ns, pool) := internAll pool vs
    (n :: ns, pool)

theorem internAll_cons (pool : Array Value) (v : Value) (vs : List Value) :
    internAll pool (v :: vs) = ((intern pool v).1 :: (internAll (intern pool v).2 vs).1,
      (internAll (intern pool v).2 vs).2) := rfl

theorem internAll_append (pool : Array Value) (vs ws : List Value) :
    internAll pool (vs ++ ws) = ((internAll pool vs).1 ++ (internAll (internAll pool vs).2 ws).1,
      (internAll (internAll pool vs).2 ws).2) := by
  induction vs generalizing pool with
  | nil => rfl
  | cons v vs ih => rw [List.cons_append, internAll_cons, internAll_cons, ih, List.cons_append]

theorem nodup_internAll (nodup : pool.toList.Nodup) (vs : List Value) : (internAll pool vs).2.toList.Nodup := by
  induction vs generalizing pool with
  | nil => exact nodup
  | cons v vs ih => exact ih (nodup_intern nodup v)

theorem prefix_internAll (pool : Array Value) (vs : List Value) : pool.toList <+: (internAll pool vs).2.toList := by
  induction vs generalizing pool with
  | nil => exact List.prefix_refl _
  | cons v vs ih => exact (prefix_intern pool v).trans (ih _)

theorem getElem?_of_front {pool' : Array Value} (h : pool.toList <+: pool'.toList) {n : Nat}
    (there : pool[n]? = some v) : pool'[n]? = some v := by
  obtain ⟨bound, -⟩ := Array.getElem?_eq_some_iff.1 there
  obtain ⟨rest, eq⟩ := h
  rw [← Array.getElem?_toList, ← eq, List.getElem?_append_left (by simpa using bound), Array.getElem?_toList, there]

theorem mem_intern_iff (pool : Array Value) (v w : Value) :
    w ∈ (intern pool v).2 ↔ w ∈ pool ∨ w = v := by
  obtain ⟨n, there, eq⟩ | ⟨-, eq⟩ := intern_cases pool v <;> rw [eq]
  · refine ⟨.inl, fun h => h.elim id ?_⟩
    rintro rfl
    exact Array.mem_of_getElem? there
  · exact Array.mem_push

theorem mem_internAll_iff (pool : Array Value) (vs : List Value) (w : Value) :
    w ∈ (internAll pool vs).2 ↔ w ∈ pool ∨ w ∈ vs := by
  induction vs generalizing pool with
  | nil => simp [internAll]
  | cons v vs ih => rw [internAll_cons, ih, mem_intern_iff, List.mem_cons, or_assoc]

theorem get_internAll (pool : Array Value) (vs : List Value) :
    List.Forall₂ (fun v n => (internAll pool vs).2[n]? = some v) vs (internAll pool vs).1 := by
  induction vs generalizing pool with
  | nil => exact .nil
  | cons v vs ih =>
    rw [internAll_cons]
    exact .cons (getElem?_of_front (prefix_internAll _ vs) (get_intern pool v)) (ih _)

/-- A pool holds every constant that was interned once, at the index that was given for it, also when more are interned.
Constants are one only if they are the same value. -/
theorem interning_faithful (vs more : List Value) :
    let (ns, pool) := internAll #[] vs
    let (ns', pool') := internAll #[] (vs ++ more)
    pool.toList.Nodup ∧ (∀ v, v ∈ pool ↔ v ∈ vs) ∧
      List.Forall₂ (fun v n => pool[n]? = some v ∧ ∀ m : Nat, pool[m]? = some v → m = n) vs ns ∧
      ns <+: ns' ∧ ∀ (n : Nat) (v : Value), pool[n]? = some v → pool'[n]? = some v := by
  have nodup := nodup_internAll List.nodup_nil vs
  have unique {v : Value} {n : Nat} (there : (internAll #[] vs).2[n]? = some v) (m : Nat)
      (there' : (internAll #[] vs).2[m]? = some v) : m = n := by
    obtain ⟨bound, -⟩ := Array.getElem?_eq_some_iff.1 there'
    rw [← Array.getElem?_toList] at there there'
    exact (List.getElem?_inj (by simpa using bound) nodup).1 (there'.trans there.symm)
  refine ⟨nodup, fun v => ?_, (get_internAll #[] vs).imp fun v n there => ⟨there, unique there⟩, ?_,
    fun n v there => ?_⟩
  · rw [mem_internAll_iff]
    simp
  · rw [internAll_append]
    exact List.prefix_append ..
  · rw [internAll_append]
    exact getElem?_of_front (prefix_internAll _ more) there

example : internAll #[] [.float ⟨0x8000000000000000⟩, .float .zero, .int 0, .float .nan, .float ⟨0x7ff8000000000000⟩,
    .float .zero, .float .nan] = ([0, 1, 2, 3, 4, 1, 3],
      #[.float ⟨0x8000000000000000⟩, .float .zero, .int 0, .float .nan, .float ⟨0x7ff8000000000000⟩]) := by
  decide +kernel

end Prototype
end RegisterMachine
