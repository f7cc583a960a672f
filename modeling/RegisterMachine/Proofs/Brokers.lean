import Mathlib.Data.List.Nodup
import RegisterMachine.Proofs.Reachable

/-! Captured variables. The ledger of a machine holds the live brokers that each fiber's frames list. Every
move of the machine is a small edit of it, so that at all times the brokers that are live are those
listed, each by one frame and over a slot of that frame's arena. -/
namespace RegisterMachine

/-- An entry of a frame's list of live brokers, with the arena of its fiber and the number of frames
below it. -/
structure Link where
  arena : Ref .arena
  height : Nat
  slot : Nat
  broker : Ref .broker
  deriving DecidableEq, Repr

def Frame.linksAt (f : Frame) (arena : Ref .arena) (height : Nat) : List Link :=
  f.live.map fun p => ⟨arena, height, p.1, p.2⟩

def linksOf (arena : Ref .arena) : List Frame → List Link
  | [] => []
  | f :: fs => f.linksAt arena fs.length ++ linksOf arena fs

theorem height_lt_of_mem_linksOf {arena : Ref .arena} {fs : List Frame} {k : Link}
    (h : k ∈ linksOf arena fs) : k.height < fs.length := by
  induction fs with
  | nil => cases h
  | cons f fs ih =>
    obtain h | h := List.mem_append.1 h
    · obtain ⟨p, -, rfl⟩ := List.mem_map.1 h
      exact Nat.lt_succ_self _
    · exact Nat.lt_succ_of_lt (ih h)

def Fiber.links (f : Fiber) : List Link := linksOf f.arena f.calls.frames

def Heap.parked (h : Heap) : List Fiber := h.coroutines.items.toList.filterMap Coroutine.parked

def Machine.fibers (m : Machine) : List Fiber := m.fiber :: (m.waiting ++ m.heap.parked)

def Machine.links (m : Machine) : List Link := m.fibers.flatMap Fiber.links

/-- A frame of some fiber lists a broker under a slot. -/
def Machine.Lists (m : Machine) (k : Link) : Prop :=
  ∃ fiber ∈ m.fibers, fiber.arena = k.arena ∧ ∃ frame below,
    frame :: below <:+ fiber.calls.frames ∧ below.length = k.height ∧ (k.slot, k.broker) ∈ frame.live

/-- The brokers, the number of arenas, and what the fibers list, with their arenas. -/
structure Ledger where
  brokers : Store .broker Broker
  arenas : Nat
  units : List (Ref .arena × List Link)

def Fiber.unit (f : Fiber) : Ref .arena × List Link := (f.arena, f.links)

def Machine.ledger (m : Machine) : Ledger :=
  ⟨m.heap.brokers, m.heap.arenas.items.size, m.fibers.map Fiber.unit⟩

namespace Ledger

def links (g : Ledger) : List Link := g.units.flatMap Prod.snd

/-- What is listed is live, and what is live is listed once; each fiber has an arena of its own. -/
structure Balanced (g : Ledger) : Prop where
  live : ∀ k ∈ g.links, g.brokers.get? k.broker = some (.live k.arena k.slot)
  once : (g.links.map Link.broker).Nodup
  all : ∀ r a i, g.brokers.get? r = some (.live a i) → ∃ k ∈ g.links, k.broker = r
  own : (g.units.map Prod.fst).Nodup
  made : ∀ a ∈ g.units.map Prod.fst, a.index < g.arenas

inductive Edit : Ledger → Ledger → Prop
  | order {st : Store .broker Broker} {n : Nat} {us us' : List (Ref .arena × List Link)} :
      us.Perm us' → Edit ⟨st, n, us⟩ ⟨st, n, us'⟩
  /-- Brokers change, but none that is live or comes to be. -/
  | assign {st st' : Store .broker Broker} {n : Nat} {us : List (Ref .arena × List Link)} :
      st.items.size ≤ st'.items.size →
      (∀ r a i, st'.get? r = some (.live a i) ↔ st.get? r = some (.live a i)) →
      Edit ⟨st, n, us⟩ ⟨st', n, us⟩
  /-- A fiber goes that lists nothing. -/
  | discard {st : Store .broker Broker} {n : Nat} {us : List (Ref .arena × List Link)}
      (a : Ref .arena) : Edit ⟨st, n, (a, []) :: us⟩ ⟨st, n, us⟩
  /-- A fiber comes, with a new arena. -/
  | create {st : Store .broker Broker} {n : Nat} {us : List (Ref .arena × List Link)} :
      Edit ⟨st, n, us⟩ ⟨st, n + 1, (⟨n⟩, []) :: us⟩
  /-- A live broker comes where none is listed, and is listed. -/
  | capture {st : Store .broker Broker} {n : Nat} {us : List (Ref .arena × List Link)}
      {a : Ref .arena} {ks ks' : List Link} (height slot : Nat) :
      (∀ k ∈ ks, k.height = height → k.slot ≠ slot) → ks'.Perm (⟨a, height, slot, (st.alloc (.live a slot)).1⟩ :: ks) →
      Edit ⟨st, n, (a, ks) :: us⟩ ⟨(st.alloc (.live a slot)).2, n, (a, ks') :: us⟩
  /-- Brokers are closed, and no longer listed. -/
  | close {h : Heap} {n : Nat} {us : List (Ref .arena × List Link)} {a : Ref .arena}
      {ks ks' gone : List Link} : ks.Perm (gone ++ ks') →
      Edit ⟨h.brokers, n, (a, ks) :: us⟩
        ⟨(h.closeBrokers (gone.map Link.broker)).brokers, n, (a, ks') :: us⟩

end Ledger

namespace Heap

theorem get?_closeBroker_self (h : Heap) (r : Ref .broker) (a : Ref .arena) (i : Nat) :
    (h.closeBroker r).brokers.get? r ≠ some (.live a i) := by
  show (h.brokers.modify r _).get? r ≠ _
  rw [Store.get?_modify_self]
  cases h.brokers.get? r <;> exact fun h => nomatch h

theorem get?_closeBroker_of_ne (h : Heap) {r q : Ref .broker} (hr : q ≠ r) :
    (h.closeBroker r).brokers.get? q = h.brokers.get? q :=
  Store.get?_modify_of_ne _ (Ne.symm hr) _

theorem get?_closeBrokers_of_not_mem (h : Heap) {rs : List (Ref .broker)} {q : Ref .broker}
    (hq : q ∉ rs) : (h.closeBrokers rs).brokers.get? q = h.brokers.get? q := by
  induction rs generalizing h with
  | nil => rfl
  | cons r rs ih =>
    rw [List.mem_cons, not_or] at hq
    show ((h.closeBroker r).closeBrokers rs).brokers.get? q = _
    rw [ih _ hq.2, get?_closeBroker_of_ne h hq.1]

theorem get?_closeBrokers_of_mem (h : Heap) {rs : List (Ref .broker)} {q : Ref .broker}
    (hq : q ∈ rs) (a : Ref .arena) (i : Nat) :
    (h.closeBrokers rs).brokers.get? q ≠ some (.live a i) := by
  induction rs generalizing h with
  | nil => cases hq
  | cons r rs ih =>
    show ((h.closeBroker r).closeBrokers rs).brokers.get? q ≠ _
    by_cases hm : q ∈ rs
    · exact ih _ hm
    · rw [get?_closeBrokers_of_not_mem _ hm]
      obtain rfl := (List.mem_cons.1 hq).resolve_right hm
      exact get?_closeBroker_self h q a i

theorem size_closeBrokers (h : Heap) (rs : List (Ref .broker)) :
    (h.closeBrokers rs).brokers.items.size = h.brokers.items.size := by
  induction rs generalizing h with
  | nil => rfl
  | cons r rs ih =>
    show ((h.closeBroker r).closeBrokers rs).brokers.items.size = _
    rw [ih]
    exact Array.size_modify

end Heap

namespace Ledger

variable {g g' : Ledger}

theorem Balanced.order {st : Store .broker Broker} {n : Nat} {us us' : List (Ref .arena × List Link)}
    (h : Balanced ⟨st, n, us⟩) (hp : us.Perm us') : Balanced ⟨st, n, us'⟩ := by
  have hl : us.flatMap Prod.snd |>.Perm (us'.flatMap Prod.snd) := hp.flatMap_right _
  have ha : us.map Prod.fst |>.Perm (us'.map Prod.fst) := hp.map _
  refine ⟨fun k hk => h.live k (hl.mem_iff.2 hk), ?_, fun r a i hr => ?_, ?_, ?_⟩
  · exact (hl.map _).nodup_iff.1 h.once
  · obtain ⟨k, hk, hkr⟩ := h.all r a i hr
    exact ⟨k, hl.mem_iff.1 hk, hkr⟩
  · exact ha.nodup_iff.1 h.own
  · exact fun a hm => h.made a (ha.mem_iff.2 hm)

theorem Balanced.assign {st st' : Store .broker Broker} {n : Nat}
    {us : List (Ref .arena × List Link)} (h : Balanced ⟨st, n, us⟩)
    (hl : ∀ r a i, st'.get? r = some (.live a i) ↔ st.get? r = some (.live a i)) :
    Balanced ⟨st', n, us⟩ :=
  ⟨fun k hk => (hl _ _ _).2 (h.live k hk), h.once, fun r a i hr => h.all r a i ((hl _ _ _).1 hr),
    h.own, h.made⟩

theorem Balanced.discard {st : Store .broker Broker} {n : Nat} {us : List (Ref .arena × List Link)}
    {a : Ref .arena} (h : Balanced ⟨st, n, (a, []) :: us⟩) : Balanced ⟨st, n, us⟩ :=
  ⟨h.live, h.once, h.all, (List.nodup_cons.1 h.own).2, fun a hm => h.made a (List.mem_cons_of_mem _ hm)⟩

theorem Balanced.create {st : Store .broker Broker} {n : Nat} {us : List (Ref .arena × List Link)}
    (h : Balanced ⟨st, n, us⟩) : Balanced ⟨st, n + 1, (⟨n⟩, []) :: us⟩ := by
  refine ⟨h.live, h.once, h.all, List.nodup_cons.2 ⟨?_, h.own⟩, ?_⟩
  · exact fun hm => Nat.lt_irrefl _ (h.made _ hm)
  · intro a hm
    obtain rfl | hm := List.mem_cons.1 hm
    · exact Nat.lt_succ_self _
    · exact Nat.lt_succ_of_lt (h.made a hm)

theorem Balanced.not_mem (h : Balanced g) {r : Ref .broker} (hr : g.brokers.items.size ≤ r.index) :
    r ∉ g.links.map Link.broker := by
  intro hm
  obtain ⟨k, hk, rfl⟩ := List.mem_map.1 hm
  have hl := h.live k hk
  rw [Store.get?, Array.getElem?_eq_none hr] at hl
  cases hl

theorem Balanced.capture {st : Store .broker Broker} {n : Nat} {us : List (Ref .arena × List Link)}
    {a : Ref .arena} {ks ks' : List Link} {height slot : Nat} (h : Balanced ⟨st, n, (a, ks) :: us⟩)
    (hp : ks'.Perm (⟨a, height, slot, (st.alloc (.live a slot)).1⟩ :: ks)) :
    Balanced ⟨(st.alloc (.live a slot)).2, n, (a, ks') :: us⟩ := by
  have hl : (ks' ++ us.flatMap Prod.snd).Perm
      (⟨a, height, slot, (st.alloc (.live a slot)).1⟩ :: (ks ++ us.flatMap Prod.snd)) :=
    hp.append_right _
  have hget : ∀ r, (st.alloc (.live a slot)).2.get? r =
      if r.index = st.items.size then some (.live a slot) else st.get? r := fun r =>
    Array.getElem?_push
  have hold : ∀ k ∈ ks ++ us.flatMap Prod.snd, k.broker.index < st.items.size := by
    intro k hk
    refine Nat.lt_of_not_le fun hle => h.not_mem hle ?_
    exact List.mem_map_of_mem hk
  refine ⟨fun k hk => ?_, ?_, fun r a' i hr => ?_, h.own, h.made⟩
  · obtain rfl | hk := List.mem_cons.1 (hl.mem_iff.1 hk)
    · exact Store.get?_alloc_self _ _
    · show (st.alloc _).2.get? _ = _
      rw [hget, if_neg (Nat.ne_of_lt (hold k hk))]
      exact h.live k hk
  · show ((ks' ++ us.flatMap Prod.snd).map Link.broker).Nodup
    rw [(hl.map _).nodup_iff, List.map_cons, List.nodup_cons]
    exact ⟨h.not_mem (Nat.le_refl _), h.once⟩
  · change (st.alloc _).2.get? r = _ at hr
    rw [hget] at hr
    split at hr
    · rename_i hi
      refine ⟨_, hl.mem_iff.2 List.mem_cons_self, ?_⟩
      cases r
      exact congrArg Ref.mk hi.symm
    · obtain ⟨k, hk, hkr⟩ := h.all r a' i hr
      exact ⟨k, hl.mem_iff.2 (List.mem_cons_of_mem _ hk), hkr⟩

theorem Balanced.close {heap : Heap} {n : Nat} {us : List (Ref .arena × List Link)} {a : Ref .arena}
    {ks ks' gone : List Link} (h : Balanced ⟨heap.brokers, n, (a, ks) :: us⟩)
    (hp : ks.Perm (gone ++ ks')) :
    Balanced ⟨(heap.closeBrokers (gone.map Link.broker)).brokers, n, (a, ks') :: us⟩ := by
  have hl : (ks ++ us.flatMap Prod.snd).Perm (gone ++ (ks' ++ us.flatMap Prod.snd)) := by
    rw [← List.append_assoc]
    exact hp.append_right _
  have honce : ((gone ++ (ks' ++ us.flatMap Prod.snd)).map Link.broker).Nodup :=
    (hl.map _).nodup_iff.1 h.once
  rw [List.map_append, List.nodup_append] at honce
  obtain ⟨-, hrest, hdisjoint⟩ := honce
  -- what stays listed was not closed
  have hkept : ∀ k ∈ ks' ++ us.flatMap Prod.snd, k.broker ∉ gone.map Link.broker := fun k hk hm =>
    hdisjoint _ hm _ (List.mem_map_of_mem hk) rfl
  refine ⟨fun k hk => ?_, hrest, fun r a' i hr => ?_, h.own, h.made⟩
  · show (heap.closeBrokers _).brokers.get? _ = _
    rw [Heap.get?_closeBrokers_of_not_mem _ (hkept k hk)]
    exact h.live k (hl.mem_iff.2 (List.mem_append_right _ hk))
  · have hm : r ∉ gone.map Link.broker := fun hm => Heap.get?_closeBrokers_of_mem _ hm a' i hr
    change (heap.closeBrokers _).brokers.get? r = _ at hr
    rw [Heap.get?_closeBrokers_of_not_mem _ hm] at hr
    obtain ⟨k, hk, rfl⟩ := h.all r a' i hr
    refine ⟨k, ?_, rfl⟩
    exact (List.mem_append.1 (hl.mem_iff.1 hk)).resolve_left fun hg => hm (List.mem_map_of_mem hg)

theorem Balanced.edit (h : Balanced g) (he : Edit g g') : Balanced g' := by
  cases he with
  | order hp => exact h.order hp
  | assign _ hl => exact h.assign hl
  | discard a => exact h.discard
  | create => exact h.create
  | capture height slot _ hp => exact h.capture hp
  | close hp => exact h.close hp

/-- What is listed afterwards was listed in the same place, unless its broker is new. -/
structure Carried (g g' : Ledger) : Prop where
  size : g.brokers.items.size ≤ g'.brokers.items.size
  old : ∀ k ∈ g'.links, k ∈ g.links ∨ g.brokers.items.size ≤ k.broker.index

theorem Carried.refl (g : Ledger) : Carried g g := ⟨Nat.le_refl _, fun _ hk => .inl hk⟩

theorem Carried.trans {g₁ g₂ g₃ : Ledger} (h : Carried g₁ g₂) (h' : Carried g₂ g₃) : Carried g₁ g₃ := by
  refine ⟨Nat.le_trans h.size h'.size, fun k hk => ?_⟩
  obtain hk | hk := h'.old k hk
  · exact h.old k hk
  · exact .inr (Nat.le_trans h.size hk)

theorem Carried.edit (he : Edit g g') : Carried g g' := by
  cases he with
  | order hp => exact ⟨Nat.le_refl _, fun k hk => .inl ((hp.flatMap_right _).mem_iff.2 hk)⟩
  | assign hs _ => exact ⟨hs, fun k hk => .inl hk⟩
  | discard a => exact ⟨Nat.le_refl _, fun k hk => .inl hk⟩
  | create => exact ⟨Nat.le_refl _, fun k hk => .inl hk⟩
  | @capture st n us a ks ks' height slot _ hp =>
    refine ⟨?_, fun k hk => ?_⟩
    · show st.items.size ≤ (st.items.push _).size
      rw [Array.size_push]
      exact Nat.le_succ _
    · obtain hk | hk := List.mem_append.1 (show k ∈ ks' ++ us.flatMap Prod.snd from hk)
      · obtain rfl | hk := List.mem_cons.1 (hp.mem_iff.1 hk)
        · exact .inr (Nat.le_refl _)
        · exact .inl (List.mem_append_left _ hk)
      · exact .inl (List.mem_append_right _ hk)
  | @close heap n us a ks ks' gone hp =>
    refine ⟨Nat.le_of_eq (Heap.size_closeBrokers _ _).symm, fun k hk => .inl ?_⟩
    obtain hk | hk := List.mem_append.1 (show k ∈ ks' ++ us.flatMap Prod.snd from hk)
    · exact List.mem_append_left _ (hp.mem_iff.2 (List.mem_append_right _ hk))
    · exact List.mem_append_right _ hk

abbrev Edits : Ledger → Ledger → Prop := Relation.ReflTransGen Edit

theorem Balanced.edits (h : Balanced g) (he : Edits g g') : Balanced g' := by
  induction he with
  | refl => exact h
  | tail _ he ih => exact ih.edit he

theorem Carried.edits (he : Edits g g') : Carried g g' := by
  induction he with
  | refl => exact .refl g
  | tail _ he ih => exact ih.trans (.edit he)

end Ledger

namespace Heap

/-- A coroutine has its place among all of them. -/
theorem exists_split {h : Heap} {co : Ref .coroutine} {c : Coroutine} (hc : h.coroutine? co = some c) :
    ∃ pre post, h.coroutines.items.toList = pre ++ c :: post ∧
      ∀ f, (h.modifyCoroutine co f).coroutines.items.toList = pre ++ f c :: post := by
  obtain ⟨hi, hget⟩ := Array.getElem?_eq_some_iff.1 hc
  have hlen : co.index < h.coroutines.items.toList.length := by rwa [Array.length_toList]
  refine ⟨h.coroutines.items.toList.take co.index, h.coroutines.items.toList.drop (co.index + 1), ?_, ?_⟩
  · rw [← hget, ← Array.getElem_toList, ← List.drop_eq_getElem_cons hlen, List.take_append_drop]
  · intro f
    show (h.coroutines.items.modify co.index f).toList = _
    rw [Array.toList_modify, List.modify_eq_take_cons_drop hlen, Array.getElem_toList, hget]

theorem parked_modify_of_eq (h : Heap) (co : Ref .coroutine) {f : Coroutine → Coroutine}
    (hf : ∀ c, h.coroutine? co = some c → (f c).parked = c.parked) :
    (h.modifyCoroutine co f).parked = h.parked := by
  cases hc : h.coroutine? co with
  | some c =>
    obtain ⟨pre, post, hl, hm⟩ := exists_split hc
    rw [parked, parked, hm, hl, List.filterMap_append, List.filterMap_append, List.filterMap_cons,
      List.filterMap_cons, hf c hc]
  | none =>
    have hlen : h.coroutines.items.toList.length ≤ co.index := by
      rw [Array.length_toList]
      exact Array.getElem?_eq_none_iff.1 hc
    show (h.coroutines.items.modify co.index f).toList.filterMap _ = _
    rw [Array.toList_modify, List.modify_eq_self hlen]
    rfl

theorem parked_perm_of_take {h : Heap} {co : Ref .coroutine} {c : Coroutine} {fiber : Fiber}
    {f : Coroutine → Coroutine} (hc : h.coroutine? co = some c) (hp : c.parked = some fiber)
    (hf : (f c).parked = none) : h.parked.Perm (fiber :: (h.modifyCoroutine co f).parked) := by
  obtain ⟨pre, post, hl, hm⟩ := exists_split hc
  rw [parked, parked, hm, hl, List.filterMap_append, List.filterMap_append,
    List.filterMap_cons_some hp, List.filterMap_cons_none hf]
  exact List.perm_middle

theorem parked_perm_of_put {h : Heap} {co : Ref .coroutine} {c : Coroutine} {fiber : Fiber}
    {f : Coroutine → Coroutine} (hc : h.coroutine? co = some c) (hp : c.parked = none)
    (hf : (f c).parked = some fiber) : (h.modifyCoroutine co f).parked.Perm (fiber :: h.parked) := by
  obtain ⟨pre, post, hl, hm⟩ := exists_split hc
  rw [parked, parked, hm, hl, List.filterMap_append, List.filterMap_append,
    List.filterMap_cons_none hp, List.filterMap_cons_some hf]
  exact List.perm_middle

end Heap

namespace Machine

open Ledger

variable {m m' : Machine}

theorem edits_of_eq (h : m'.ledger = m.ledger) : Edits m.ledger m'.ledger := by
  rw [h]

theorem parked_newCoroutine (m : Machine) (entry : Callee) :
    (m.newCoroutine entry).2.heap.parked = m.heap.parked ++
      [{ arena := ⟨m.heap.arenas.items.size⟩, token := ⟨m.heap.tokens.items.size⟩,
         isCoroutine := true }] := by
  show (m.heap.coroutines.items.push _).toList.filterMap _ = _
  rw [Array.toList_push, List.filterMap_append]
  rfl

theorem edits_newCoroutine (m : Machine) (entry : Callee) :
    Edits m.ledger (m.newCoroutine entry).2.ledger := by
  have hsize : (m.newCoroutine entry).2.heap.arenas.items.size = m.heap.arenas.items.size + 1 :=
    Array.size_push _
  have hledger : (m.newCoroutine entry).2.ledger = ⟨m.heap.brokers, m.heap.arenas.items.size + 1,
      m.fibers.map Fiber.unit ++ [(⟨m.heap.arenas.items.size⟩, [])]⟩ := by
    unfold ledger fibers
    rw [parked_newCoroutine, hsize, ← List.append_assoc, List.map_cons, List.map_append, List.map_cons]
    rfl
  rw [hledger]
  exact (Relation.ReflTransGen.single .create).tail (.order (List.perm_append_singleton _ _).symm)

theorem parked_load (m : Machine) (p : Prototype) : (m.load p).2.heap.parked = m.heap.parked := by
  rw [Heap.parked, (Loaded.load m p).coroutines, Heap.parked]

theorem edits_load (m : Machine) (p : Prototype) : Edits m.ledger (m.load p).2.ledger := by
  have h := Loaded.load m p
  have hledger : (m.load p).2.ledger = { m.ledger with brokers := (m.load p).2.heap.brokers } := by
    show (⟨_, (m.load p).2.heap.arenas.items.size,
      (m.fiber :: (m.waiting ++ (m.load p).2.heap.parked)).map _⟩ : Ledger) = _
    rw [h.arenas, parked_load]
    rfl
  rw [hledger]
  refine .single (.assign h.size fun r a i => ?_)
  by_cases hr : r.index < m.heap.brokers.items.size
  · rw [h.old r hr]
  · have hr := Nat.le_of_not_lt hr
    refine ⟨fun h' => absurd h' (h.new r a i hr), fun h' => ?_⟩
    rw [Store.get?, Array.getElem?_eq_none hr] at h'
    cases h'

theorem edits_quiet (h : Quiet m m') : Edits m.ledger m'.ledger := by
  have harena : ∀ r g, ({ m with heap := m.heap.modifyArena r g } : Machine).ledger = m.ledger := by
    intro r g
    show (⟨m.heap.brokers, (m.heap.arenas.items.modify r.index g).size, _⟩ : Ledger) = _
    rw [Array.size_modify]
    rfl
  cases h with
  | write op _ => exact edits_of_eq (harena _ _)
  | top top => exact .refl
  | assign v _ _ => exact edits_of_eq (harena _ _)
  | @assignClosed r v hr =>
    refine .single (.assign (Nat.le_of_eq Array.size_modify.symm) fun q a i => ?_)
    show (m.heap.brokers.modify r _).get? q = _ ↔ _
    by_cases hq : q = r
    · subst hq
      rw [Store.get?_modify_self]
      refine ⟨fun h => ?_, fun h => absurd h (hr a i)⟩
      obtain ⟨b, -, hb⟩ := Option.map_eq_some_iff.1 h
      cases hb
    · rw [Store.get?_modify_of_ne _ (Ne.symm hq)]
  | setFrom r first vs => exact .refl
  | closure c => exact .refl
  | snapshot s => exact .refl
  | act a =>
    cases a with
    | newCoroutine entry => exact edits_newCoroutine m entry
    | load p => exact edits_load m p
    | setCoroutineMetatable r metatable =>
      have hp := m.heap.parked_modify_of_eq r (f := fun c => { c with metatable }) fun _ _ => rfl
      refine edits_of_eq ?_
      show (⟨_, _, (m.fiber :: (m.waiting ++ (m.heap.modifyCoroutine r _).parked)).map _⟩ : Ledger) = _
      rw [hp]
      rfl
    | _ => exact .refl

theorem insertBroker_perm (slot : Nat) (r : Ref .broker) (live : List (Nat × Ref .broker)) :
    (Frame.insertBroker slot r live).Perm ((slot, r) :: live) := by
  induction live with
  | nil => exact .refl _
  | cons p rest ih =>
    obtain ⟨s, q⟩ := p
    unfold Frame.insertBroker
    split
    · exact .refl _
    · exact (ih.cons _).trans (.swap _ _ _)

theorem frames_of_frame? {f : Frame} (h : m.frame? = some f) :
    ∃ fs, m.fiber.calls.frames = f :: fs := List.head?_eq_some_iff.1 h

theorem frame?_of_frames {f : Frame} {fs : List Frame} (h : m.fiber.calls.frames = f :: fs) :
    m.frame? = some f := List.head?_eq_some_iff.2 ⟨fs, h⟩

/-- The ledger with what the running fiber lists in front. -/
theorem ledger_eq (m : Machine) : m.ledger = ⟨m.heap.brokers, m.heap.arenas.items.size,
    (m.fiber.arena, linksOf m.fiber.arena m.fiber.calls.frames) ::
      (m.waiting ++ m.heap.parked).map Fiber.unit⟩ := rfl

theorem ledger_modifyFrame (m : Machine) {g : Frame → Frame} (hg : ∀ f, (g f).live = f.live) :
    (m.modifyFrame g).ledger = m.ledger := by
  have hlinks : linksOf m.fiber.arena (m.fiber.calls.modifyTop g).frames =
      linksOf m.fiber.arena m.fiber.calls.frames := by
    cases hf : m.fiber.calls.frames with
    | nil =>
      have h : (m.fiber.calls.modifyTop g).frames = [] := by
        revert hf
        obtain ⟨_ | ⟨f, fs⟩, n, hn⟩ := m.fiber.calls
        · exact fun _ => rfl
        · exact fun hf => nomatch hf
      rw [h]
    | cons f fs =>
      rw [frames_modifyTop g hf, linksOf, linksOf, Frame.linksAt, Frame.linksAt, hg]
  rw [ledger_eq, ledger_eq]
  show (⟨_, _, (_, linksOf m.fiber.arena (m.fiber.calls.modifyTop g).frames) :: _⟩ : Ledger) = _
  rw [hlinks]
  rfl

theorem edits_openBroker {f : Frame} {slot : Nat} (h : m.frame? = some f) (hn : f.broker? slot = none) :
    Edits m.ledger (m.openBroker slot).ledger := by
  obtain ⟨fs, hf⟩ := frames_of_frame? h
  let r := (m.heap.brokers.alloc (.live m.fiber.arena slot)).1
  have hframes : (m.openBroker slot).fiber.calls.frames = f.addBroker slot r :: fs :=
    frames_modifyTop (·.addBroker slot r) hf
  rw [ledger_eq, ledger_eq, hframes, hf]
  refine .single (.capture fs.length slot (fun k hk hh => ?_) ?_)
  · obtain hk | hk := List.mem_append.1 hk
    · obtain ⟨p, hp, rfl⟩ := List.mem_map.1 hk
      exact Ne.symm (bne_iff_ne.1 (List.lookup_eq_none_iff.1 hn p hp))
    · exact absurd hh (Nat.ne_of_lt (height_lt_of_mem_linksOf hk))
  exact ((insertBroker_perm slot r f.live).map _).append_right _

theorem arenas_closeBrokers (h : Heap) (rs : List (Ref .broker)) :
    (h.closeBrokers rs).arenas = h.arenas := by
  induction rs generalizing h with
  | nil => rfl
  | cons r rs ih => exact ih _

theorem parked_closeBrokers (h : Heap) (rs : List (Ref .broker)) :
    (h.closeBrokers rs).parked = h.parked := by
  rw [Heap.parked, coroutines_closeBrokers, Heap.parked]

/-- Brokers that the innermost frame listed are closed, and the frame lists them no more. -/
theorem edits_close {gone ks' : List Link} (calls : CallStack)
    (hp : (linksOf m.fiber.arena m.fiber.calls.frames).Perm (gone ++ ks'))
    (hk : linksOf m.fiber.arena calls.frames = ks') : Edits m.ledger
      ((m.modifyFiber fun fiber => { fiber with calls }).modifyHeap
        (·.closeBrokers (gone.map Link.broker))).ledger := by
  rw [ledger_eq, ledger_eq]
  show Edits _ ⟨_, (m.heap.closeBrokers _).arenas.items.size, (_, linksOf m.fiber.arena calls.frames) ::
    (m.waiting ++ (m.heap.closeBrokers _).parked).map Fiber.unit⟩
  rw [hk, arenas_closeBrokers, parked_closeBrokers]
  exact .single (.close hp)

theorem edits_part {f : Frame} (start : Nat) (h : m.frame? = some f) :
    Edits m.ledger (m.part f start).ledger := by
  obtain ⟨fs, hf⟩ := frames_of_frame? h
  let link (p : Nat × Ref .broker) : Link := ⟨m.fiber.arena, fs.length, p.1, p.2⟩
  let f' := ((f.detachBrokers start).2.takeMarks start).2
  have hgone : (f.detachBrokers start).1 =
      ((f.live.filter fun p => start ≤ p.1).map link).map Link.broker := by
    rw [List.map_map]
    rfl
  have hsplit : f.live.Perm
      ((f.live.filter fun p => start ≤ p.1) ++ f.live.filter fun p => p.1 < start) := by
    have hp := (List.filter_append_perm (fun p : Nat × Ref .broker => decide (start ≤ p.1)) f.live).symm
    simpa only [← Nat.not_le, decide_not] using hp
  have hkept : linksOf m.fiber.arena (m.fiber.calls.modifyTop fun _ => f').frames =
      (f.live.filter fun p => p.1 < start).map link ++ linksOf m.fiber.arena fs := by
    rw [frames_modifyTop _ hf]
    rfl
  unfold part
  rw [hgone]
  refine edits_close (m.fiber.calls.modifyTop fun _ => f') ?_ hkept
  rw [hf, ← List.append_assoc, ← List.map_append]
  exact (hsplit.map link).append_right _

theorem edits_drop (h : Drop m m') : Edits m.ledger m'.ledger := by
  cases h with
  | @intro f calls hp =>
    have hf := frames_of_pop hp
    have hgone : f.live.map Prod.snd =
        (f.linksAt m.fiber.arena calls.frames.length).map Link.broker := by
      rw [Frame.linksAt, List.map_map]
      rfl
    unfold dropFrame
    rw [hgone]
    refine edits_close calls ?_ rfl
    rw [hf]
    exact .refl _

theorem edits_change (h : Change m m') : Edits m.ledger m'.ledger := by
  cases h with
  | quiet hq => exact edits_quiet hq
  | touch ht =>
    cases ht with
    | goto g => exact edits_of_eq (ledger_modifyFrame m fun _ => rfl)
    | mark slot => exact edits_of_eq (ledger_modifyFrame m fun _ => rfl)
    | capture hf hn => exact edits_openBroker hf hn
    | part start hf => exact edits_part start hf
  | enter he =>
    cases he with
    | intro f hl _ _ =>
      refine edits_of_eq ?_
      rw [ledger_eq, ledger_eq]
      show (⟨_, _, (_, f.linksAt _ _ ++ _) :: _⟩ : Ledger) = _
      rw [Frame.linksAt, hl]
      rfl
  | drop hd => exact edits_drop hd
  | await p _ => exact .refl

theorem parked_setStatus (m : Machine) (co : Ref .coroutine) (status : Status) :
    (m.setStatus co status).heap.parked = m.heap.parked :=
  m.heap.parked_modify_of_eq co fun _ _ => rfl

theorem ledger_setStatus (m : Machine) (co : Ref .coroutine) (status : Status) :
    (m.setStatus co status).ledger = m.ledger := by
  show (⟨_, _, (m.fiber :: (m.waiting ++ (m.setStatus co status).heap.parked)).map _⟩ : Ledger) = _
  rw [parked_setStatus]
  rfl

theorem ledger_setActiveStatus (m : Machine) (status : Status) :
    (m.setActiveStatus status).ledger = m.ledger := by
  unfold setActiveStatus
  split
  · exact ledger_setStatus m _ status
  · rfl

theorem ledger_endClosing (m : Machine) (co : Ref .coroutine) (token : Ref .token)
    (failure : Option Fault) : (m.endClosing co token failure).2.ledger = m.ledger := by
  have h := ledger_setStatus (m.modifyHeap fun h => { h with tokens := h.tokens.cancel token }) co .dead
  cases failure <;> exact h

theorem ledger_switchTo (m : Machine) (fiber : Fiber) :
    (m.switchTo fiber).ledger = { m.ledger with units := fiber.unit :: m.ledger.units } := rfl

theorem ledger_enterCoroutine (m : Machine) (co : Ref .coroutine) (fiber : Fiber) :
    (m.enterCoroutine co fiber).ledger = ((m.park co none).switchTo fiber).ledger := by
  show ((((m.park co none).setActiveStatus .normal).setStatus co .running).switchTo fiber).ledger = _
  rw [ledger_switchTo, ledger_setStatus, ledger_setActiveStatus, ← ledger_switchTo]

/-- A fiber that is taken out of a coroutine. -/
theorem fibers_perm_of_take {co : Ref .coroutine} {c : Coroutine} {fiber : Fiber}
    (hc : m.heap.coroutine? co = some c) (hp : c.parked = some fiber) :
    m.fibers.Perm (fiber :: (m.park co none).fibers) := by
  have hparked : m.heap.parked.Perm (fiber :: (m.park co none).heap.parked) :=
    Heap.parked_perm_of_take hc hp rfl
  exact (hparked.append_left (m.fiber :: m.waiting)).trans List.perm_middle

/-- A fiber that is put into a coroutine. -/
theorem fibers_perm_of_put {co : Ref .coroutine} {c : Coroutine} (fiber : Fiber)
    (hc : m.heap.coroutine? co = some c) (hp : c.parked = none) :
    (m.park co (some fiber)).fibers.Perm (fiber :: m.fibers) := by
  have hparked : (m.park co (some fiber)).heap.parked.Perm (fiber :: m.heap.parked) :=
    Heap.parked_perm_of_put hc hp rfl
  exact (hparked.append_left (m.fiber :: m.waiting)).trans List.perm_middle

/-- A fiber that was parked runs, and the one that ran waits for it. -/
theorem edits_switchTo {co : Ref .coroutine} {c : Coroutine} {fiber fiber' : Fiber}
    (hc : m.heap.coroutine? co = some c) (hp : c.parked = some fiber) (hu : fiber'.unit = fiber.unit) :
    Edits m.ledger ((m.park co none).switchTo fiber').ledger := by
  rw [ledger_switchTo, hu]
  exact .single (.order ((fibers_perm_of_take hc hp).map Fiber.unit))

theorem ledger_of_waiting {f : Fiber} {w : List Fiber} (hw : m.waiting = f :: w) :
    m.ledger = { ledger { m with fiber := f, waiting := w } with
      units := m.fiber.unit :: (ledger { m with fiber := f, waiting := w }).units } := by
  unfold ledger fibers
  rw [hw]
  rfl

theorem edits_switchBack {f : Fiber} {w : List Fiber} (hw : m.waiting = f :: w)
    (hf : m.fiber.calls.frames = []) : Edits m.ledger m.switchBack.ledger := by
  have hback : m.switchBack = { m with fiber := f, waiting := w } := by
    simp only [switchBack, hw]
  have hunit : m.fiber.unit = (m.fiber.arena, []) := by
    rw [Fiber.unit, Fiber.links, hf, linksOf]
  rw [hback, ledger_of_waiting hw, hunit]
  exact .single (.discard _)

theorem ledger_leaving {f : Fiber} {w : List Fiber} (hw : m.waiting = f :: w) :
    m.leaving.ledger = m.switchBack.ledger := by
  unfold leaving
  rw [ledger_setActiveStatus]
  simp only [switchBack, hw]
  rfl

/-- The running fiber is parked, and the one that waits runs. -/
theorem edits_park {co : Ref .coroutine} {c : Coroutine} {f : Fiber} {w : List Fiber}
    (hw : m.waiting = f :: w) (hc : m.leaving.heap.coroutine? co = some c) (hp : c.parked = none) :
    Edits m.ledger (m.leaving.park co (some m.fiber)).ledger := by
  have hback : m.switchBack = { m with fiber := f, waiting := w } := by
    simp only [switchBack, hw]
  have hledger : m.ledger = { m.leaving.ledger with units := m.fiber.unit :: m.leaving.ledger.units } := by
    rw [ledger_leaving hw, hback]
    exact ledger_of_waiting hw
  rw [hledger]
  exact .single (.order ((fibers_perm_of_put m.fiber hc hp).symm.map Fiber.unit))

theorem parked_park_none {co : Ref .coroutine} {c : Coroutine} (hc : m.heap.coroutine? co = some c)
    (hp : c.parked = none) : (m.park co none).heap.parked = m.heap.parked := by
  refine m.heap.parked_modify_of_eq co fun c' hc' => ?_
  rw [hc] at hc'
  cases hc'
  exact hp.symm

/-- A coroutine without frames gives its fiber up. -/
theorem edits_discard {co : Ref .coroutine} {c : Coroutine} (hc : m.heap.coroutine? co = some c)
    (hf : ∀ fiber, c.parked = some fiber → fiber.calls.frames = []) :
    Edits m.ledger (m.park co none).ledger := by
  cases hp : c.parked with
  | none =>
    refine edits_of_eq ?_
    show (⟨_, _, (m.fiber :: (m.waiting ++ (m.park co none).heap.parked)).map _⟩ : Ledger) = _
    rw [parked_park_none hc hp]
    rfl
  | some fiber =>
    have hunit : fiber.unit = (fiber.arena, []) := by
      rw [Fiber.unit, Fiber.links, hf fiber hp, linksOf]
    have h := edits_switchTo hc hp (rfl : fiber.unit = fiber.unit)
    rw [ledger_switchTo, hunit] at h
    exact h.tail (.discard _)

theorem edits_shift {l l' : List (Ref .coroutine)} (hs : Scheduled l m) (h : Shift l m l' m') :
    Edits m.ledger m'.ledger := by
  cases h with
  | enterCall => exact .refl
  | leaveCall top => exact .refl
  | enter hc _ hp =>
    rw [ledger_enterCoroutine]
    exact edits_switchTo hc hp rfl
  | finish _ hw hf =>
    rw [ledger_setStatus, ledger_leaving hw]
    exact edits_switchBack hw hf
  | @yield _ _ co rest f w ha hw _ =>
    have hmem : co ∈ m.active := by
      rw [ha]
      exact List.mem_cons_self
    obtain ⟨c, hc⟩ := Option.isSome_iff_exists.1 (hs.present co (.inl hmem))
    have hp := ((hs.fits co c hc).of_mem hmem).2
    rw [ledger_setStatus]
    have hleft := coroutine?_leaving m co
    rw [hc] at hleft
    split at hleft
    · exact edits_park hw hleft hp
    · exact edits_park hw hleft hp
  | refuse _ _ =>
    rw [ledger_setStatus]
  | close hc _ hp => exact edits_switchTo hc hp rfl
  | closed token failure hw hf =>
    rw [ledger_endClosing]
    exact edits_switchBack hw hf
  | discard token hc _ hp =>
    rw [ledger_endClosing]
    exact edits_discard hc hp

end Machine

namespace Config

open Machine Ledger

theorem edits_moves {st st' : List (Ref .coroutine) × Machine} (hs : Scheduled st.1 st.2)
    (hm : Moves st st') : Edits st.2.ledger st'.2.ledger := by
  induction hm with
  | refl => exact .refl
  | tail hpath hm ih =>
    refine ih.trans ?_
    cases hm with
    | change hc => exact edits_change hc
    | shift hsh => exact edits_shift (scheduled_moves hs hpath) hsh
    | watch _ _ _ _ _ _ => exact .refl

theorem balanced_initial (limits : Limits) : Ledger.Balanced (bare limits).ledger := by
  refine ⟨fun k hk => ?_, List.nodup_nil, fun r a i hr => ?_, ?_, ?_⟩
  · cases hk
  · cases hr
  · exact List.nodup_cons.2 ⟨List.not_mem_nil, List.nodup_nil⟩
  · intro a ha
    obtain rfl := List.mem_singleton.1 ha
    exact Nat.lt_succ_self 0

variable {host : Host} {c c' : Config}

theorem Reachable.ledger_balanced (h : Reachable host c) : Ledger.Balanced c.machine.ledger := by
  obtain ⟨limits, h⟩ := h
  have hinit : Reachable host (initial limits) := ⟨limits, .refl⟩
  exact (balanced_initial limits).edits (edits_moves hinit.scheduled (hinit.moves h))

theorem Reachable.carried (h : Reachable host c) (hl : LeadsTo host c c') :
    Carried c.machine.ledger c'.machine.ledger := .edits (edits_moves h.scheduled (h.moves hl))

theorem links_ledger (m : Machine) : m.ledger.links = m.links := by
  unfold Ledger.links Machine.links Machine.ledger
  rw [List.flatMap_map]
  rfl

theorem mem_linksOf {arena : Ref .arena} {fs : List Frame} {k : Link} :
    k ∈ linksOf arena fs ↔ arena = k.arena ∧ ∃ frame below,
      frame :: below <:+ fs ∧ below.length = k.height ∧ (k.slot, k.broker) ∈ frame.live := by
  induction fs with
  | nil => simp [linksOf]
  | cons f fs ih =>
    rw [linksOf, List.mem_append, ih]
    constructor
    · rintro (hk | ⟨ha, frame, below, hs, hh, hl⟩)
      · obtain ⟨p, hp, rfl⟩ := List.mem_map.1 hk
        exact ⟨rfl, f, fs, List.suffix_refl _, rfl, hp⟩
      · exact ⟨ha, frame, below, hs.trans (List.suffix_cons _ _), hh, hl⟩
    · rintro ⟨ha, frame, below, hs, hh, hl⟩
      obtain hs | hs := List.suffix_cons_iff.1 hs
      · cases hs
        refine .inl (List.mem_map.2 ⟨_, hl, ?_⟩)
        rw [ha, hh]
      · exact .inr ⟨ha, frame, below, hs, hh, hl⟩

theorem mem_links {m : Machine} {k : Link} : k ∈ m.links ↔ m.Lists k := by
  unfold Machine.links Machine.Lists
  simp only [List.mem_flatMap, Fiber.links, mem_linksOf]

/-- A broker that is not live any more is never live again. -/
theorem not_live_of_carried {m m' : Machine} (h : Ledger.Balanced m.ledger)
    (h' : Ledger.Balanced m'.ledger) (hc : Carried m.ledger m'.ledger) {r : Ref .broker}
    (hr : r.index < m.heap.brokers.items.size)
    (hn : ∀ a i, m.heap.brokers.get? r ≠ some (.live a i)) (a : Ref .arena) (i : Nat) :
    m'.heap.brokers.get? r ≠ some (.live a i) := by
  intro hl
  obtain ⟨k, hk, rfl⟩ := h'.all r a i hl
  obtain hk | hk := hc.old k hk
  · exact hn _ _ (h.live k hk)
  · exact absurd hr (Nat.not_lt_of_le hk)

theorem index_lt_of_mem {g : Ledger} (h : Ledger.Balanced g) {k : Link} (hk : k ∈ g.links) :
    k.broker.index < g.brokers.items.size :=
  Nat.lt_of_not_le fun hle => h.not_mem hle (List.mem_map_of_mem hk)

/-- What the innermost frame lists is in the ledger. -/
theorem mem_live_of_pop {m : Machine} {f : Frame} {calls : CallStack}
    (hp : m.fiber.calls.pop? = some (f, calls)) {p : Nat × Ref .broker} (hm : p ∈ f.live) :
    ⟨m.fiber.arena, calls.frames.length, p.1, p.2⟩ ∈ m.ledger.links := by
  rw [links_ledger]
  have hframes : f :: calls.frames <:+ m.fiber.calls.frames := ⟨[], (frames_of_pop hp).symm⟩
  exact mem_links.2 ⟨m.fiber, List.mem_cons_self, rfl, f, calls.frames, hframes, rfl, hm⟩

/-- Once a frame has gone, no broker that it listed is ever live again. -/
theorem not_live_of_drop {l l' : List (Ref .coroutine)} {m m' : Machine} {f : Frame} {calls : CallStack}
    (hb : Ledger.Balanced m.ledger) (hs : Scheduled l m) (hp : m.fiber.calls.pop? = some (f, calls))
    (hm : Moves (l, m.dropFrame f calls) (l', m')) {p : Nat × Ref .broker} (hmem : p ∈ f.live)
    (a : Ref .arena) (i : Nat) : m'.heap.brokers.get? p.2 ≠ some (.live a i) := by
  have hdrop : Drop m (m.dropFrame f calls) := .intro hp
  have hb' := hb.edits (edits_drop hdrop)
  have hs' : Scheduled l (m.dropFrame f calls) := hs.same (.change (.drop hdrop))
  refine not_live_of_carried hb' (hb'.edits (edits_moves hs' hm)) (.edits (edits_moves hs' hm)) ?_ ?_ a i
  · have hi := index_lt_of_mem hb (mem_live_of_pop hp hmem)
    exact Nat.lt_of_lt_of_le hi (Carried.edits (edits_drop hdrop)).size
  · exact Heap.get?_closeBrokers_of_mem _ (List.mem_map_of_mem hmem)

/-- At every reachable machine the live brokers are those listed, each by one frame and over a slot of its own arena.
Once a frame has left, nothing that it listed is live. -/
theorem brokers_invariant (hc : Reachable host c) :
    (∀ k, c.machine.Lists k → c.machine.heap.brokers.get? k.broker = some (.live k.arena k.slot)) ∧
    (∀ r a i, c.machine.heap.brokers.get? r = some (.live a i) →
      ∃! k, c.machine.Lists k ∧ k.broker = r) ∧
    (c.machine.fibers.map Fiber.arena).Nodup ∧
    (∀ k, c.machine.Lists k → ∀ c', LeadsTo host c c' →
      (∀ f ∈ c'.machine.fibers, f.arena = k.arena → f.calls.depth ≤ k.height) →
      ∀ c'', LeadsTo host c' c'' → ∀ a i, c''.machine.heap.brokers.get? k.broker ≠ some (.live a i)) ∧
    (∀ c', LeadsTo host c c' → Moves (c.closing [], c.machine) (c'.closing [], c'.machine)) ∧
    ∀ l m f calls, Moves (c.closing [], c.machine) (l, m) → m.fiber.calls.pop? = some (f, calls) →
      ∀ l' m', Moves (l, m.dropFrame f calls) (l', m') →
        ∀ p ∈ f.live, ∀ a i, m'.heap.brokers.get? p.2 ≠ some (.live a i) := by
  have hb := hc.ledger_balanced
  have hlive : ∀ k, c.machine.Lists k → k ∈ c.machine.ledger.links := by
    intro k hk
    rw [links_ledger]
    exact mem_links.2 hk
  -- two entries for one broker are the same
  have hunique : ∀ k ∈ c.machine.ledger.links, ∀ k' ∈ c.machine.ledger.links,
      k'.broker = k.broker → k' = k := fun k hk k' hk' he =>
    List.inj_on_of_nodup_map hb.once hk' hk he
  refine ⟨fun k hk => hb.live k (hlive k hk), ?_, ?_, ?_, fun c' hl => hc.moves hl, ?_⟩
  · intro r a i hr
    obtain ⟨k, hk, rfl⟩ := hb.all r a i hr
    refine ⟨k, ⟨?_, rfl⟩, fun k' hk' => hunique k hk k' (hlive k' hk'.1) hk'.2⟩
    rw [links_ledger] at hk
    exact mem_links.1 hk
  · have hown := hb.own
    rw [ledger, List.map_map] at hown
    exact hown
  · intro k hk c' hl hgone c'' hl'
    have hc' := hc.trans hl
    refine not_live_of_carried hc'.ledger_balanced (hc'.trans hl').ledger_balanced (hc'.carried hl')
      ?_ ?_
    · exact Nat.lt_of_lt_of_le (index_lt_of_mem hb (hlive k hk)) (hc.carried hl).size
    · intro a i hr
      obtain ⟨k', hk', he⟩ := hc'.ledger_balanced.all _ a i hr
      -- the broker would still be listed in the same place
      have hold : k' ∈ c.machine.ledger.links := ((hc.carried hl).old k' hk').resolve_right fun hle =>
        absurd (he ▸ index_lt_of_mem hb (hlive k hk)) (Nat.not_lt_of_le hle)
      obtain rfl := hunique k (hlive k hk) k' hold he
      rw [links_ledger] at hk'
      obtain ⟨f, hf, ha, frame, below, hs, hh, -⟩ := mem_links.1 hk'
      have hdepth := hgone f hf ha
      have hlen := hs.length_le
      rw [f.calls.depth_eq, ← hh] at hdepth
      simp only [List.length_cons] at hlen
      omega
  · intro l m f calls hm hp l' m' hm' p hmem
    have hs := scheduled_moves hc.scheduled hm
    exact not_live_of_drop (hb.edits (edits_moves hc.scheduled hm)) hs hp hm' hmem

def captureArgument : Prototype where
  name := "outer"
  source := "outer"
  params := 1
  code := #[.abx .closure 1 0, .abc .ret 1 (.register 2) (.register 0)]
  children := [{ name := "inner", source := "outer", captures := #[⟨"x", true, 0⟩] }]

/-- The argument of a running frame is captured: one frame lists its broker. -/
theorem brokers_invariant_captured :
    let host : Host := fun _ _ => .done []
    let c := steps host 4 (ask host (.call (.closure ⟨0⟩) [.int 5])
      ((bare ⟨4, 64, 8, 8⟩).load captureArgument).2 [])
    c.machine.heap.brokers.get? ⟨0⟩ = some (.live ⟨0⟩ 1) ∧
      (∃! k, c.machine.Lists k ∧ k.broker = ⟨0⟩) := by
  intro host c
  have hlive : c.machine.heap.brokers.get? ⟨0⟩ = some (.live ⟨0⟩ 1) := by decide +kernel
  have hc : Reachable host c := reachable_asked host _ [.load captureArgument] _ 4
  exact ⟨hlive, (brokers_invariant hc).2.1 _ _ _ hlive⟩

end Config
end RegisterMachine
