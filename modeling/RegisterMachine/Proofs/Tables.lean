import RegisterMachine.Proofs.TailCalls
import RegisterMachine.Proofs.Traversal

/-! The tables of a machine. They are empty when they come, and then keys are assigned or the metatable is set, in one
table at a time; so all of them are in order in all that a machine can come to, whatever the host does. -/
namespace RegisterMachine

open Machine

namespace Heap

def Steady (h : Heap) : Prop := ∀ r t, h.tables.get? r = some t → t.Steady

namespace Steady

variable {h h' : Heap}

theorem of_tables (hh : h.Steady) (same : h'.tables = h.tables) : h'.Steady := by
  intro r t ht
  exact hh r t (same ▸ ht)

theorem newTable (hh : h.Steady) : (h.newTable {}).2.Steady := by
  intro r t ht
  change (h.tables.alloc _).2.get? r = some t at ht
  rw [Store.get?, Store.alloc, Array.getElem?_push] at ht
  split at ht
  · cases ht
    exact Table.steady_empty
  · exact hh r t ht

theorem modifyTable (hh : h.Steady) (r : Ref .table) {g : Table → Table}
    (hg : ∀ t : Table, t.Steady → (g t).Steady) : (h.modifyTable r g).Steady := by
  intro q t ht
  change (h.tables.modify r g).get? q = some t at ht
  by_cases hq : r = q
  · rw [hq, Store.get?_modify_self] at ht
    obtain ⟨t, found, rfl⟩ := Option.map_eq_some_iff.1 ht
    exact hg t (hh q t found)
  · rw [Store.get?_modify_of_ne _ hq] at ht
    exact hh q t ht

end Steady
end Heap

namespace Machine

variable {m m' : Machine}

theorem steady_bare (limits : Limits) : (bare limits).heap.Steady := by
  have none : ({} : Heap).Steady := by
    intro r t ht
    cases ht
  exact none.newTable

theorem steady_act (h : m.heap.Steady) (a : Action) : (a.apply m).2.heap.Steady := by
  cases a with
  | newTable => exact h.newTable
  | setField r k v => exact h.modifyTable r fun _ steady => steady.setKey k v
  | setTableMetatable r metatable => exact h.modifyTable r fun _ steady => steady.setMetatable metatable
  | load p => exact h.of_tables (Loaded.load m p).tables
  | _ => exact h

theorem steady_change (h : m.heap.Steady) (hc : Change m m') : m'.heap.Steady := by
  cases hc with
  | quiet hq =>
    cases hq with
    | setFrom r first vs => exact h.modifyTable r fun _ steady => steady.setFrom first vs
    | act a => exact steady_act h a
    | _ => exact h
  | touch ht =>
    cases ht with
    | part start _ => exact h.of_tables (by rw [part, modifyHeap, Heap.closeBrokers_eq]; rfl)
    | _ => exact h
  | enter he =>
    cases he
    exact h
  | drop hd =>
    cases hd
    exact h.of_tables (by rw [dropFrame, modifyHeap, Heap.closeBrokers_eq]; rfl)
  | await _ _ => exact h

end Machine

namespace Config

variable {host : Host} {c : Config}

theorem steady_moves {st st' : List (Ref .coroutine) × Machine} (h : st.2.heap.Steady) (hm : Moves st st') :
    st'.2.heap.Steady := by
  induction hm with
  | refl => exact h
  | tail _ hm ih =>
    cases hm with
    | change hc => exact steady_change ih hc
    | shift hs => exact ih.of_tables (by rw [(Switched.shift hs).heap])
    | watch _ _ _ _ _ _ => exact ih

theorem Reachable.steady_heap (hc : Reachable host c) : c.machine.heap.Steady := by
  obtain ⟨limits, h⟩ := hc
  have hmoves := Reachable.moves ⟨limits, .refl⟩ h
  exact steady_moves (steady_bare limits) hmoves

end Config
end RegisterMachine
