import Mathlib.Data.List.TakeWhile
import RegisterMachine.Library.Registry
import RegisterMachine.Proofs.CallChains
import RegisterMachine.Proofs.Contents

/-! Installing a registry. Every function is found where its name says, among the globals or in the table of its
library, and nothing else is there; a call of it is refused while arguments are missing, and runs it on what it is
given otherwise. -/
namespace RegisterMachine

/-- The parts of a name: what stands before its last dot, if it has one, and the rest. -/
inductive Native.Named : String → Option String → String → Prop
  | bare {short : String} : '.' ∉ short.toList → Named short none short
  | qualified {library short : String} : '.' ∉ short.toList → Named (library ++ "." ++ short) (some library) short

namespace Native

variable {name library short : String} {library? : Option String}

theorem toList_qualified (library short : String) :
    (library ++ "." ++ short).toList.reverse = short.toList.reverse ++ '.' :: library.toList.reverse := by
  simp only [String.toList_append, List.reverse_append]
  rfl

theorem no_dot_reverse (h : '.' ∉ short.toList) : ∀ c ∈ short.toList.reverse, (c != '.') = true := by
  intro c mem
  rw [bne_iff_ne]
  rintro rfl
  exact h (List.mem_reverse.1 mem)

theorem Named.parts (h : Named name library? short) : libraryOf? name = library? ∧ shortNameOf name = short := by
  cases h with
  | bare dotless =>
    have all := no_dot_reverse dotless
    rw [libraryOf?, shortNameOf, List.dropWhile_eq_nil_iff.2 all, List.takeWhile_eq_self_iff.2 all,
      List.reverse_reverse]
    exact ⟨rfl, String.ofList_toList⟩
  | @qualified library short dotless =>
    have all := no_dot_reverse dotless
    rw [libraryOf?, shortNameOf, toList_qualified, List.dropWhile_append_of_pos all, List.takeWhile_append_of_pos all]
    simp

theorem named_parts (name : String) : Named name (libraryOf? name) (shortNameOf name) := by
  have dotless : '.' ∉ (shortNameOf name).toList := by
    rw [shortNameOf, String.toList_ofList, List.mem_reverse]
    intro mem
    simpa using List.mem_takeWhile_imp mem
  have split := List.takeWhile_append_dropWhile (p := (· != '.')) (l := name.toList.reverse)
  rw [libraryOf?]
  cases rest : name.toList.reverse.dropWhile (· != '.') with
  | nil =>
    rw [rest, List.append_nil] at split
    have whole : shortNameOf name = name := by
      rw [shortNameOf, split, List.reverse_reverse, String.ofList_toList]
    rw [whole] at dotless ⊢
    exact .bare dotless
  | cons c rest' =>
    -- what is left of the reversed name starts with its first dot, the last one of the name
    obtain rfl : c = '.' := by
      have := List.head?_dropWhile_not (· != '.') name.toList.reverse
      simpa [rest] using this
    have whole : name = String.ofList rest'.reverse ++ "." ++ shortNameOf name := by
      refine String.toList_inj.1 (List.reverse_injective ?_)
      rw [toList_qualified, String.toList_ofList, shortNameOf, String.toList_ofList, List.reverse_reverse,
        List.reverse_reverse, ← rest, split]
    have named := @Named.qualified (String.ofList rest'.reverse) _ dotless
    rwa [← whole] at named

theorem named_iff : Named name library? short ↔ libraryOf? name = library? ∧ shortNameOf name = short := by
  refine ⟨Named.parts, ?_⟩
  rintro ⟨rfl, rfl⟩
  exact named_parts name

theorem Named.unique {library'? : Option String} {short' : String} (h : Named name library? short)
    (h' : Named name library'? short') : library? = library'? ∧ short = short' :=
  ⟨h.parts.1.symm.trans h'.parts.1, h.parts.2.symm.trans h'.parts.2⟩

theorem Named.eq_of_bare (h : Named name none short) : short = name := by
  cases h
  rfl

theorem Named.determines {name' : String} (h : Named name library? short) (h' : Named name' library? short) :
    name = name' := by
  cases h with
  | bare => cases h'; rfl
  | qualified => cases h'; rfl

end Native

theorem Key.ofString_inj {s s' : String} : Key.ofString s = .ofString s' ↔ s = s' := by
  constructor
  · intro same
    have := congrArg Key.value same
    simpa [Key.ofString] using this
  · rintro rfl
    rfl

theorem Table.getKey_empty (k : Key) : empty.getKey k = .nil := by
  rw [describes_empty.getKey_eq, Contents.get]
  rfl

structure Table.Holds (t : Table) (field : String → Value → Prop) : Prop where
  neat : t.Neat
  flat : t.items = #[]
  reads : ∀ s v, v ≠ .nil → (t.getStr s = v ↔ field s v)
  only : ∀ k, t.getKey k ≠ .nil → ∃ s, k = .ofString s

namespace Table.Holds

variable {t : Table} {field field' : String → Value → Prop} {s : String} {v : Value}

theorem empty : Table.empty.Holds fun _ _ => False where
  neat := neat_empty
  flat := rfl
  reads s _ live := ⟨fun read => live (read.symm.trans (getKey_empty (.ofString s))), False.elim⟩
  only k live := absurd (getKey_empty k) live

theorem congr (h : t.Holds field) (same : ∀ s v, field s v ↔ field' s v) : t.Holds field' :=
  { h with reads := fun s v live => (h.reads s v live).trans (same s v) }

theorem setStr (h : t.Holds field) (fresh : ∀ w, ¬field s w) (v : Value) :
    (t.setStr s v).Holds fun s' w => field s' w ∨ s' = s ∧ w = v := by
  obtain ⟨neat, assigned⟩ := h.neat.setKey (.ofString s) v
  refine ⟨neat, h.flat, fun s' w hw => ?_, fun k hk => ?_⟩
  · have read : (t.setStr s v).getStr s' = if s' = s then v else t.getStr s' := by
      have := assigned (.ofString s')
      simp only [Key.ofString_inj] at this
      exact this
    rw [read]
    split
    · rename_i same
      subst same
      simp only [fresh w, true_and, false_or, eq_comm]
    · rename_i other
      simp only [h.reads s' w hw, other, false_and, or_false]
  · have read : (t.setStr s v).getKey k = if k = .ofString s then v else t.getKey k := assigned k
    rw [read] at hk
    split at hk
    · exact ⟨s, ‹_›⟩
    · exact h.only k hk

end Table.Holds

def Heap.Keeps (h : Heap) (r : Ref .table) (field : String → Value → Prop) : Prop :=
  ∃ t, h.tables.get? r = some t ∧ t.Holds field

namespace Heap.Keeps

variable {h : Heap} {r q : Ref .table} {field field' : String → Value → Prop} {s : String} {v : Value}

theorem table (hr : h.Keeps r field) : (h.table r).Holds field := by
  obtain ⟨t, found, holds⟩ := hr
  rw [Store.get?] at found
  rwa [Heap.table, Store.getD, Array.getD_eq_getD_getElem?, found]

theorem congr (hr : h.Keeps r field) (same : ∀ s v, field s v ↔ field' s v) : h.Keeps r field' := by
  obtain ⟨t, found, holds⟩ := hr
  exact ⟨t, found, holds.congr same⟩

theorem setStr (hr : h.Keeps r field) (fresh : ∀ w, ¬field s w) (v : Value) :
    (h.modifyTable r (·.setStr s v)).Keeps r fun s' w => field s' w ∨ s' = s ∧ w = v := by
  obtain ⟨t, found, holds⟩ := hr
  refine ⟨t.setStr s v, ?_, holds.setStr fresh v⟩
  rw [modifyTable, Store.get?_modify_self, found]
  rfl

theorem modify_of_ne (hq : h.Keeps q field) (ne : r ≠ q) (f : Table → Table) : (h.modifyTable r f).Keeps q field := by
  obtain ⟨t, found, holds⟩ := hq
  exact ⟨t, (Store.get?_modify_of_ne _ ne f).trans found, holds⟩

theorem of_tables {h' : Heap} (hr : h.Keeps r field) (same : h'.tables = h.tables) : h'.Keeps r field := by
  rw [Keeps, same]
  exact hr

theorem newTable (hr : h.Keeps r field) (t : Table) : (h.newTable t).2.Keeps r field ∧ (h.newTable t).1 ≠ r := by
  obtain ⟨t', found, holds⟩ := hr
  have there : (h.tables.get? r).isSome := by rw [found]; rfl
  refine ⟨⟨t', (Store.get?_alloc_of_isSome _ t r there).trans found, holds⟩, ?_⟩
  rintro rfl
  simp [Heap.newTable, Store.alloc, Store.get?] at found

theorem new (h : Heap) : (h.newTable {}).2.Keeps (h.newTable {}).1 fun _ _ => False :=
  ⟨{}, Store.get?_alloc_self .., Table.Holds.empty⟩

end Heap.Keeps

namespace Registry

/-- Functions with different names, where no name without a dot is what stands before the last dot of another. -/
structure Compatible (ns : List Native) : Prop where
  distinct : (ns.map Native.name).Nodup
  apart : ∀ a ∈ ns, ∀ b ∈ ns, ∀ name short, Native.Named a.name none name → ¬Native.Named b.name (some name) short

/-- It is enough to look at the parts of the names. -/
theorem compatible_of_parts {ns : List Native} (distinct : (ns.map Native.name).Nodup)
    (checked : ∀ a ∈ ns, ∀ b ∈ ns, Native.libraryOf? a.name = none →
      Native.libraryOf? b.name ≠ some (Native.shortNameOf a.name)) : Compatible ns := by
  refine ⟨distinct, fun a ha b hb name short bare qualified => ?_⟩
  refine checked a ha b hb bare.parts.1 ?_
  rw [bare.parts.2, qualified.parts.1]

def Filed (ns : List Native) (library? : Option String) (short : String) (v : Value) : Prop :=
  ∃ i n, ns[i]? = some n ∧ Native.Named n.name library? short ∧ v = .native ⟨i⟩

def FiledGlobally (ns : List Native) (libraries : List (String × Ref .table)) (name : String) (v : Value) : Prop :=
  Filed ns none name v ∨ ∃ t, libraries.lookup name = some t ∧ v = .table t

structure Shelved (ns : List Native) (libraries : List (String × Ref .table)) (globals : Ref .table) (h : Heap) :
    Prop where
  global : h.Keeps globals (FiledGlobally ns libraries)
  library : ∀ l t, libraries.lookup l = some t → h.Keeps t (Filed ns (some l))
  noGlobals : ∀ l t, libraries.lookup l = some t → t ≠ globals
  one : ∀ l l' t, libraries.lookup l = some t → libraries.lookup l' = some t → l = l'

variable {ns : List Native} {n : Native} {libraries : List (String × Ref .table)} {m : Machine}
  {library? : Option String} {library short : String} {v : Value} {globals t : Ref .table} {h h' : Heap}

theorem Compatible.init (h : Compatible (ns ++ [n])) : Compatible ns where
  distinct := by
    have := h.distinct
    rw [List.map_append] at this
    exact this.of_append_left
  apart a ha b hb := h.apart a (List.mem_append_left _ ha) b (List.mem_append_left _ hb)

theorem Compatible.fresh (h : Compatible (ns ++ [n])) (named : Native.Named n.name library? short) (w : Value) :
    ¬Filed ns library? short w := by
  rintro ⟨i, n', found, named', -⟩
  have distinct := h.distinct
  rw [List.map_append, List.nodup_append] at distinct
  have mem := List.mem_map_of_mem (f := Native.name) (List.mem_of_getElem? found)
  exact distinct.2.2 _ mem _ (List.mem_singleton_self _) (named'.determines named)

theorem filed_concat : Filed (ns ++ [n]) library? short v ↔
    Filed ns library? short v ∨ Native.Named n.name library? short ∧ v = .native ⟨ns.length⟩ := by
  constructor
  · rintro ⟨i, n', found, named, rfl⟩
    obtain hi | rfl | hi := Nat.lt_trichotomy i ns.length
    · rw [List.getElem?_append_left hi] at found
      exact .inl ⟨i, n', found, named, rfl⟩
    · rw [List.getElem?_concat_length, Option.some.injEq] at found
      exact .inr ⟨found ▸ named, rfl⟩
    · rw [List.getElem?_eq_none (by rw [List.length_append, List.length_singleton]; exact hi)] at found
      cases found
  · rintro (⟨i, n', found, named, rfl⟩ | ⟨named, rfl⟩)
    · obtain ⟨hi, -⟩ := List.getElem?_eq_some_iff.1 found
      exact ⟨i, n', (List.getElem?_append_left hi).trans found, named, rfl⟩
    · exact ⟨ns.length, n, List.getElem?_concat_length, named, rfl⟩

theorem filed_concat_of_ne {other? : Option String} (named : Native.Named n.name library? short)
    (ne : other? ≠ library?) (s : String) (v : Value) : Filed ns other? s v ↔ Filed (ns ++ [n]) other? s v := by
  rw [filed_concat, or_iff_left]
  rintro ⟨named', -⟩
  exact ne (named'.unique named).1

theorem filed_concat_of_named (named : Native.Named n.name library? short) (s : String) (v : Value) :
    Filed ns library? s v ∨ s = short ∧ v = .native ⟨ns.length⟩ ↔ Filed (ns ++ [n]) library? s v := by
  rw [filed_concat]
  refine or_congr_right (and_congr_left fun _ => ⟨?_, fun named' => ?_⟩)
  · rintro rfl
    exact named
  · exact (named'.unique named).2

theorem lookup_cons_eq_some_iff {l : String} {t' : Ref .table} : List.lookup l ((library, t) :: libraries) = some t' ↔
    l = library ∧ t' = t ∨ l ≠ library ∧ libraries.lookup l = some t' := by
  rw [List.lookup_cons]
  by_cases same : l = library
  · simp [same, eq_comm]
  · simp [same, beq_false_of_ne same]

theorem Shelved.of_tables (shelved : Shelved ns libraries globals h) (same : h'.tables = h.tables) :
    Shelved ns libraries globals h' :=
  { shelved with
    global := shelved.global.of_tables same
    library := fun l t found => (shelved.library l t found).of_tables same }

theorem not_filedGlobally {name : String} (noFunction : ∀ w, ¬Filed ns none name w)
    (noLibrary : libraries.lookup name = none) (w : Value) : ¬FiledGlobally ns libraries name w := by
  rintro (filed | ⟨t, found, -⟩)
  · exact noFunction w filed
  · rw [noLibrary] at found
    cases found

/-- A new library is put among the globals. -/
theorem Shelved.newLibrary (shelved : Shelved ns libraries globals h) (absent : libraries.lookup library = none)
    (noFunction : ∀ w, ¬Filed ns none library w) (unused : ∀ s w, ¬Filed ns (some library) s w)
    (opened : h.newTable {} = (t, h')) :
    Shelved ns ((library, t) :: libraries) globals (h'.modifyTable globals (·.setStr library (.table t))) := by
  obtain rfl : (h.newTable {}).1 = t := congrArg Prod.fst opened
  obtain rfl : (h.newTable {}).2 = h' := congrArg Prod.snd opened
  obtain ⟨kept, newGlobals⟩ := shelved.global.newTable {}
  have empty := Heap.Keeps.new h
  have fresh := not_filedGlobally noFunction absent
  constructor
  case global =>
    refine (kept.setStr fresh _).congr fun s v => ?_
    simp only [FiledGlobally, lookup_cons_eq_some_iff]
    constructor
    · rintro ((filed | ⟨t, found, rfl⟩) | ⟨rfl, rfl⟩)
      · exact .inl filed
      · refine .inr ⟨t, .inr ⟨?_, found⟩, rfl⟩
        rintro rfl
        rw [absent] at found
        cases found
      · exact .inr ⟨_, .inl ⟨rfl, rfl⟩, rfl⟩
    · rintro (filed | ⟨t, ⟨rfl, rfl⟩ | ⟨-, found⟩, rfl⟩)
      · exact .inl (.inl filed)
      · exact .inr ⟨rfl, rfl⟩
      · exact .inl (.inr ⟨t, found, rfl⟩)
  case library =>
    intro l t found
    obtain ⟨rfl, rfl⟩ | ⟨-, found⟩ := lookup_cons_eq_some_iff.1 found
    · exact (empty.modify_of_ne newGlobals.symm _).congr fun s v => iff_of_false id (unused s v)
    · exact (((shelved.library l t found).newTable {}).1).modify_of_ne (shelved.noGlobals l t found).symm _
  case noGlobals =>
    intro l t found
    obtain ⟨rfl, rfl⟩ | ⟨-, found⟩ := lookup_cons_eq_some_iff.1 found
    · exact newGlobals
    · exact shelved.noGlobals l t found
  case one =>
    intro l l' t found found'
    obtain ⟨rfl, rfl⟩ | ⟨-, old⟩ := lookup_cons_eq_some_iff.1 found <;>
      obtain ⟨rfl, same⟩ | ⟨-, old'⟩ := lookup_cons_eq_some_iff.1 found'
    · rfl
    -- the new table is none of those that were there
    · exact absurd rfl ((shelved.library _ _ old').newTable {}).2
    · exact absurd same.symm ((shelved.library _ _ old).newTable {}).2
    · exact shelved.one l l' t old old'

/-- A function is put among the globals. -/
theorem Shelved.putGlobal (shelved : Shelved ns libraries globals h) (compatible : Compatible (ns ++ [n]))
    (named : Native.Named n.name none short) (noLibrary : libraries.lookup short = none) :
    Shelved (ns ++ [n]) libraries globals (h.modifyTable globals (·.setStr short (.native ⟨ns.length⟩))) := by
  have fresh := not_filedGlobally (compatible.fresh named) noLibrary
  refine ⟨(shelved.global.setStr fresh _).congr fun s v => ?_, fun l t found => ?_, shelved.noGlobals, shelved.one⟩
  · rw [FiledGlobally, FiledGlobally, or_right_comm, filed_concat_of_named named]
  · refine ((shelved.library l t found).modify_of_ne (shelved.noGlobals l t found).symm _).congr fun s v => ?_
    exact filed_concat_of_ne named (Option.some_ne_none l) s v

/-- A function is put into the table of its library. -/
theorem Shelved.putLibrary (shelved : Shelved ns libraries globals h) (compatible : Compatible (ns ++ [n]))
    (named : Native.Named n.name (some library) short) (found : libraries.lookup library = some t) :
    Shelved (ns ++ [n]) libraries globals (h.modifyTable t (·.setStr short (.native ⟨ns.length⟩))) := by
  have noGlobals := shelved.noGlobals library t found
  refine ⟨(shelved.global.modify_of_ne noGlobals _).congr fun s v => ?_, fun l t' found' => ?_, shelved.noGlobals,
    shelved.one⟩
  · rw [FiledGlobally, FiledGlobally, filed_concat_of_ne named (Option.some_ne_none library).symm]
  · by_cases same : l = library
    · subst same
      obtain rfl : t = t' := by simpa [found] using found'
      exact ((shelved.library l t found).setStr (compatible.fresh named) _).congr (filed_concat_of_named named)
    · have apart : t ≠ t' := by
        rintro rfl
        exact same (shelved.one l library t found' found)
      refine ((shelved.library l t' found').modify_of_ne apart _).congr (filed_concat_of_ne named ?_)
      rwa [Ne, Option.some.injEq]

def Needed (ns : List Native) (libraries : List (String × Ref .table)) : Prop :=
  ∀ l, libraries.lookup l = none ↔ ∀ n ∈ ns, ∀ short, ¬Native.Named n.name (some l) short

structure Installed (ns : List Native) (state : List (String × Ref .table) × Machine) : Prop where
  natives : state.2.heap.natives.items = ns.toArray
  needed : Needed ns state.1
  shelved : Shelved ns state.1 state.2.globals state.2.heap

theorem Needed.concat (needed : Needed ns libraries)
    (there : ∀ l short, Native.Named n.name (some l) short → libraries.lookup l ≠ none) :
    Needed (ns ++ [n]) libraries := by
  intro l
  rw [needed l, List.forall_mem_append]
  refine ⟨fun unused => ⟨unused, ?_⟩, And.left⟩
  rintro n' mem short named
  rw [List.mem_singleton.1 mem] at named
  exact there l short named ((needed l).2 unused)

theorem Needed.concat_new (needed : Needed ns libraries) (named : Native.Named n.name (some library) short)
    (t : Ref .table) : Needed (ns ++ [n]) ((library, t) :: libraries) := by
  intro l
  by_cases same : l = library
  · subst same
    refine iff_of_false ?_ fun unused => unused n (List.mem_append_right _ (List.mem_singleton_self n)) short named
    simp
  · have other : ∀ short, ¬Native.Named n.name (some l) short := by
      intro short' named'
      exact same (Option.some.inj (named'.unique named).1)
    have old : List.lookup l ((library, t) :: libraries) = libraries.lookup l := by
      simp [List.lookup_cons, beq_false_of_ne same]
    rw [old, needed l, List.forall_mem_append]
    simp [other]

theorem installed_bare (limits : Limits) : Installed [] ([], .bare limits) where
  natives := rfl
  needed l := by simp
  shelved := by
    refine ⟨⟨{}, rfl, Table.Holds.empty.congr fun s v => ?_⟩, ?_, ?_, ?_⟩
    · simp [FiledGlobally, Filed]
    all_goals simp

/-- The ways to install a function: among the globals, in a table that is there, or in a new one. -/
theorem installOne_cases (libraries : List (String × Ref .table)) {q : Ref .native}
    (made : m.heap.newNative n = (q, h)) :
    (∃ short, Native.Named n.name none short ∧ installOne (libraries, m) n =
      (libraries, { m with heap := h.modifyTable m.globals (·.setStr short (.native q)) })) ∨
    ∃ library short, Native.Named n.name (some library) short ∧
      ((∃ t, libraries.lookup library = some t ∧ installOne (libraries, m) n =
        (libraries, { m with heap := h.modifyTable t (·.setStr short (.native q)) })) ∨
      libraries.lookup library = none ∧ ∃ t h', h.newTable {} = (t, h') ∧ installOne (libraries, m) n =
        ((library, t) :: libraries, { m with heap :=
          (h'.modifyTable m.globals (·.setStr library (.table t))).modifyTable t (·.setStr short (.native q)) })) := by
  have named := Native.named_parts n.name
  cases split : Native.libraryOf? n.name with
  | none =>
    rw [split] at named
    have whole := named.eq_of_bare
    refine .inl ⟨_, named, ?_⟩
    simp only [installOne, split, made, whole]
    rfl
  | some library =>
    rw [split] at named
    refine .inr ⟨library, _, named, ?_⟩
    cases known : libraries.lookup library with
    | some t =>
      refine .inl ⟨t, rfl, ?_⟩
      simp only [installOne, split, known, made]
      rfl
    | none =>
      refine .inr ⟨rfl, _, _, rfl, ?_⟩
      simp only [installOne, split, known, made]
      rfl

theorem Installed.installOne {state : List (String × Ref .table) × Machine} (installed : Installed ns state)
    (compatible : Compatible (ns ++ [n])) : Installed (ns ++ [n]) (installOne state n) := by
  obtain ⟨libraries, m⟩ := state
  obtain ⟨natives, needed, shelved⟩ := installed
  have natives : m.heap.natives.items = ns.toArray := natives
  obtain ⟨h, made⟩ : ∃ h, m.heap.newNative n = (⟨ns.length⟩, h) := by
    refine ⟨(m.heap.newNative n).2, ?_⟩
    simp only [Heap.newNative, Store.alloc, natives, List.size_toArray]
  have hnatives : h.natives.items = (ns ++ [n]).toArray := by
    rw [← List.push_toArray, ← natives]
    exact (congrArg (·.2.natives.items) made).symm
  have last : n ∈ ns ++ [n] := List.mem_append_right _ (List.mem_singleton_self n)
  have shelved : Shelved ns libraries m.globals h := shelved.of_tables (congrArg (·.2.tables) made).symm
  obtain ⟨short, named, eq⟩ | ⟨library, short, named, ⟨t, found, eq⟩ | ⟨absent, t, h', opened, eq⟩⟩ :=
    installOne_cases libraries made <;> rw [eq]
  -- no library has the name of a function among the globals
  · refine ⟨hnatives, needed.concat fun l s named' => ?_, shelved.putGlobal compatible named ?_⟩
    · cases (named'.unique named).1
    · refine (needed short).2 fun n' mem s named' => ?_
      exact compatible.apart n last n' (List.mem_append_left _ mem) short s named named'
  · refine ⟨hnatives, needed.concat fun l s named' => ?_, shelved.putLibrary compatible named found⟩
    obtain rfl : l = library := Option.some.inj (named'.unique named).1
    rw [found]
    exact Option.some_ne_none t
  -- no function among the globals has the name of a new library, and the library has had no function yet
  · refine ⟨?_, needed.concat_new named t, (shelved.newLibrary absent ?_ ?_ opened).putLibrary compatible named ?_⟩
    · exact (congrArg (·.2.natives.items) opened).symm.trans hnatives
    · rintro w ⟨i, a, found, named', -⟩
      exact compatible.apart a (List.mem_append_left _ (List.mem_of_getElem? found)) n last library short named' named
    · rintro s w ⟨i, a, found, named', -⟩
      exact (needed library).1 absent a (List.mem_of_getElem? found) s named'
    · exact List.lookup_cons_self

theorem installed (limits : Limits) (compatible : Compatible ns) :
    Installed ns (ns.foldl installOne ([], .bare limits)) := by
  -- from the end of the list, because a step adds a function behind those that are there
  induction ns using List.reverseRecOn with
  | nil => exact installed_bare limits
  | append_singleton ns n ih =>
    rw [List.foldl_append]
    exact (ih compatible.init).installOne compatible

theorem foldlM_register (g : Registry) (distinct : ((g.entries ++ ns).map Native.name).Nodup) :
    ns.foldlM register g = .ok ⟨g.entries ++ ns⟩ := by
  induction ns generalizing g with
  | nil => rw [List.append_nil]; rfl
  | cons n ns ih =>
    have absent : g.contains n.name = false := by
      rw [contains, Registry.get?, Option.isSome_eq_false_iff, Option.isNone_iff_eq_none, List.find?_eq_none]
      intro n' mem
      rw [List.map_append, List.nodup_append] at distinct
      rw [beq_iff_eq]
      exact distinct.2.2 _ (List.mem_map_of_mem mem) _ (List.mem_map_of_mem List.mem_cons_self)
    have taken : g.register n = .ok ⟨g.entries ++ [n]⟩ := by
      rw [register, absent]
      rfl
    rw [List.foldlM_cons, taken]
    show ns.foldlM register _ = _
    rw [List.append_cons g.entries n ns] at distinct ⊢
    exact ih ⟨g.entries ++ [n]⟩ distinct

theorem named_get? {g : Registry} {name : String} (found : g.get? name = some n) : n.name = name := by
  have same := List.find?_some found
  exact beq_iff_eq.1 same

theorem get?_eq_some_iff (distinct : (ns.map Native.name).Nodup) {name : String} :
    get? ⟨ns⟩ name = some n ↔ n ∈ ns ∧ n.name = name := by
  constructor
  · intro found
    exact ⟨List.mem_of_find?_eq_some found, named_get? found⟩
  · rintro ⟨mem, rfl⟩
    cases found : get? ⟨ns⟩ n.name with
    | none => simpa using List.find?_eq_none.1 found n mem
    | some n' =>
      rw [List.inj_on_of_nodup_map distinct (List.mem_of_find?_eq_some found) mem (named_get? found)]

theorem contains_iff {name : String} : contains ⟨ns⟩ name = true ↔ ∃ n ∈ ns, n.name = name := by
  rw [contains, Registry.get?, List.find?_isSome]
  simp

end Registry

/-- A machine with functions under their names. -/
structure Machine.Offers (m : Machine) (ns : List Native) : Prop where
  named : ∀ n ∈ ns, ∃ library? short, Native.Named n.name library? short
  function : ∀ n ∈ ns, ∀ name, Native.Named n.name none name →
    ∃ q, m.global name = .native q ∧ m.heap.natives.get? q = some n
  /-- All functions of a library are in one table, which is a global variable and holds nothing else. -/
  library : ∀ l, (∃ n ∈ ns, ∃ short, Native.Named n.name (some l) short) →
    ∃ t, m.global l = .table t ∧ t ≠ m.globals ∧ (∀ l', m.global l' = .table t → l' = l) ∧
      (∀ n ∈ ns, ∀ short, Native.Named n.name (some l) short →
        ∃ q, (m.heap.table t).getStr short = .native q ∧ m.heap.natives.get? q = some n) ∧
      ∀ k, (m.heap.table t).getKey k ≠ .nil →
        ∃ n ∈ ns, ∃ short, Native.Named n.name (some l) short ∧ k = .ofString short
  /-- A global variable is a function or a library. -/
  only : ∀ k, (m.heap.table m.globals).getKey k ≠ .nil →
    ∃ n ∈ ns, ∃ library? short, Native.Named n.name library? short ∧ k = .ofString (library?.getD short)

namespace Registry

variable {ns : List Native} {state : List (String × Ref .table) × Machine} {library? : Option String} {short : String}
  {n : Native}

theorem Installed.get? (installed : Installed ns state) (i : Nat) : state.2.heap.natives.get? ⟨i⟩ = ns[i]? := by
  rw [Store.get?, installed.natives, List.getElem?_toArray]

theorem Installed.filed (installed : Installed ns state) (mem : n ∈ ns)
    (named : Native.Named n.name library? short) :
    ∃ q, Filed ns library? short (.native q) ∧ state.2.heap.natives.get? q = some n := by
  obtain ⟨i, found⟩ := List.mem_iff_getElem?.1 mem
  exact ⟨⟨i⟩, ⟨i, n, found, named, rfl⟩, (installed.get? i).trans found⟩

theorem Installed.offers (installed : Installed ns state) : state.2.Offers ns := by
  have needed := installed.needed
  have shelved := installed.shelved
  have globals := shelved.global.table
  refine ⟨fun n _ => ⟨_, _, Native.named_parts n.name⟩, fun n mem name named => ?_, fun l used => ?_, fun k live => ?_⟩
  · obtain ⟨q, filed, found⟩ := installed.filed mem named
    exact ⟨q, (globals.reads name (.native q) (by simp)).2 (.inl filed), found⟩
  · obtain ⟨n, mem, short, named⟩ := used
    obtain ⟨t, found⟩ := Option.ne_none_iff_exists'.1 fun absent => (needed l).1 absent n mem short named
    have inside := (shelved.library l t found).table
    refine ⟨t, (globals.reads l (.table t) (by simp)).2 (.inr ⟨t, found, rfl⟩), shelved.noGlobals l t found,
      fun l' read => ?_, fun n mem short named => ?_, fun k live => ?_⟩
    · obtain ⟨_, _, -, -, isNative⟩ | ⟨t', found', same⟩ := (globals.reads l' (.table t) (by simp)).1 read
      · cases isNative
      · cases same
        exact shelved.one l' l t found' found
    · obtain ⟨q, filed, stored⟩ := installed.filed mem named
      exact ⟨q, (inside.reads short (.native q) (by simp)).2 filed, stored⟩
    · obtain ⟨s, rfl⟩ := inside.only k live
      obtain ⟨i, n, stored, named, -⟩ := (inside.reads s _ live).1 rfl
      exact ⟨n, List.mem_of_getElem? stored, s, named, rfl⟩
  · obtain ⟨s, rfl⟩ := globals.only k live
    obtain ⟨i, n, found, named, -⟩ | ⟨t, found, -⟩ := (globals.reads s _ live).1 rfl
    · exact ⟨n, List.mem_of_getElem? found, none, s, named, rfl⟩
    · by_contra unused
      have absent := (needed s).2 fun n mem short named => unused ⟨n, mem, some s, short, named, rfl⟩
      rw [found] at absent
      cases absent

end Registry

theorem Machine.create_offers (limits : Limits) : (create limits).Offers Registry.standard.entries := by
  have compatible : Registry.Compatible Registry.standard.entries :=
    Registry.compatible_of_parts (by decide +kernel) (by decide +kernel)
  exact (Registry.installed limits compatible).offers

namespace Exec

/-- The run of a routine on its own; a debug break ends it without results. -/
def runRoutine (host : Host) (routine : Routine) (args : List Value) : Exec (List Value) := fun m =>
  (routine.script host args).exec m |>.handle fun result m =>
    match result with
    | .ok vs => .ret vs m
    | .error (.interrupt .debugBreak) => (do stopForDebugger; pure []) m
    | .error f => .raise f m

/-- What a call of a native function comes to: it is refused for the first argument that is missing, or runs on all
that it is given. What is done with the fault, and with the run, is left open. -/
inductive Answers {α : Type} (n : Native) (host : Host) (args : List Value) (m : Machine) (raise : Fault → Machine → α)
    (run : Step (List Value) → α) : α → Prop
  | refused {library? : Option String} {short : String} {f : Fault} : args.length < n.minArgs →
      Native.Named n.name library? short → f = .runtime (.badArgument (args.length + 1) short "value expected") →
      f.message = "bad argument #" ++ toString (args.length + 1) ++ " to '" ++ short ++ "' (value expected)" →
      Answers n host args m raise run (raise f m)
  | ran : n.minArgs ≤ args.length → Answers n host args m raise run (run (runRoutine host n.routine args m))

variable {n : Native} {q : Ref .native} {m : Machine} {start : Nat}

theorem Answers.map {α β : Type} {host : Host} {args : List Value} {raise : Fault → Machine → α}
    {run : Step (List Value) → α} {raise' : Fault → Machine → β} {run' : Step (List Value) → β} {a : α} (φ : α → β)
    (h : Answers n host args m raise run a) (hraise : ∀ c m, φ (raise (.runtime c) m) = raise' (.runtime c) m)
    (hrun : ∀ s, φ (run s) = run' s) : Answers n host args m raise' run' (φ a) := by
  cases h with
  | refused few named fault text =>
    subst fault
    rw [hraise]
    exact .refused few named rfl text
  | ran enough =>
    rw [hrun]
    exact .ran enough

theorem message_missing (k : Nat) (short : String) : (Fault.runtime (.badArgument k short "value expected")).message =
    "bad argument #" ++ toString k ++ " to '" ++ short ++ "' (value expected)" := by
  have joined : "' (" ++ "value expected" ++ ")" = "' (value expected)" := rfl
  rw [← joined, ← String.append_assoc, ← String.append_assoc]
  rfl

theorem invokeNative_answers (host : Host) (args : List Value) (stored : m.heap.natives.get? q = some n) :
    Answers n host args m .raise id (invokeNative host q args m) := by
  have found : m.heap.native q = n := by
    rw [Store.get?] at stored
    rw [Heap.native, Store.getD, Array.getD_eq_getD_getElem?, stored]
    rfl
  rw [invokeNative, found, Native.script]
  split
  · rename_i few
    exact .refused few (Native.named_parts n.name) rfl (message_missing _ _)
  · rename_i enough
    exact .ran (Nat.le_of_not_lt enough)

/-- A call of a native function runs it at once. -/
theorem begin_of_native (host : Host) (count : Nat) (wanted : Option Nat) (hv : m.arena.get start = .native q) :
    begin host start count wanted m =
      (invokeNative host q (m.arena.readRange (start + 1) count) m).bind fun vs => .ret (some vs) := by
  have hc : (m.arena.get start).callee? = some (.native q) := by rw [hv]; rfl
  rw [begin, bind_eq, resolve, maxCallLinks, resolveAlong_callee 63 count hc]
  show (invokeNative host q (m.arena.readRange (start + 1) count) >>= fun vs => pure (some vs)) m = _
  rw [bind_eq]
  rfl

/-- A call by an instruction. -/
theorem callAt_answers (host : Host) {args : List Value} (wanted : Option Nat)
    (stored : m.heap.natives.get? q = some n) (hv : m.arena.get start = .native q)
    (hargs : m.arena.readRange (start + 1) args.length = args) :
    Answers n host args m .raise (conclude start wanted) (callAt host start args.length wanted m) := by
  rw [callAt_proceed, begin_of_native host args.length wanted hv, hargs, proceed_native]
  exact (invokeNative_answers host args stored).map _ (fun _ _ => rfl) fun _ => rfl

end Exec

/-- A call from the host. -/
theorem Machine.callValue_answers {n : Native} {q : Ref .native} {m : Machine} (host : Host) (serve : Server)
    (time : Nat) (args : List Value) (stored : m.heap.natives.get? q = some n) :
    (¬m.Fits args.length 0 ∧ Overflows (callValue host serve time (.native q) args m) m) ∨
    m.Fits args.length 0 ∧ ∃ m', Exec.Laid m.fiber.freeSlot (.native q) args m.enterCall m' ∧
      Exec.Answers n host args m' (fun f m₁ => some (.error f, m₁.leaveCall m.fiber.top))
        (fun s => handedBack m.fiber.top (s.run serve)) (callValue host serve time (.native q) args m) := by
  obtain overflow | ⟨hfits, m', laid, hcall⟩ := callValue_cases host serve time (.native q) args m
  · exact .inl overflow
  have entered := laid.enterCall
  refine .inr ⟨hfits, m'.enterCall, entered, ?_⟩
  have stored' : m'.enterCall.heap.natives.get? q = some n := by
    rw [entered.only]
    exact stored
  rw [hcall, Exec.begin_of_native host args.length none entered.callee, proceed_native, entered.args]
  refine (Exec.invokeNative_answers host args stored').map (fun s => handedBack m.fiber.top (s.run serve)) ?_ ?_
  · exact fun _ _ => rfl
  · exact fun _ => rfl

/-- Every way to call a native function is guarded. -/
def Native.Guarded (n : Native) (q : Ref .native) (host : Host) (m : Machine) : Prop :=
  ∀ args : List Value,
    Exec.Answers n host args m .raise id (Exec.invokeNative host q args m) ∧
    (∀ start wanted, m.arena.get start = .native q → m.arena.readRange (start + 1) args.length = args →
      Exec.Answers n host args m .raise (Exec.conclude start wanted)
        (Exec.callAt host start args.length wanted m)) ∧
    ∀ serve time,
      (¬m.Fits args.length 0 ∧ Machine.Overflows (Machine.callValue host serve time (.native q) args m) m) ∨
      m.Fits args.length 0 ∧ ∃ m', Exec.Laid m.fiber.freeSlot (.native q) args m.enterCall m' ∧
        Exec.Answers n host args m' (fun f m₁ => some (.error f, m₁.leaveCall m.fiber.top))
          (fun s => Machine.handedBack m.fiber.top (s.run serve))
          (Machine.callValue host serve time (.native q) args m)

/-- Functions with different names are found where their names say, and nothing else is there, unless a name without a
dot is the library of another one. Their calls are guarded. -/
theorem Registry.installation_complete (ns : List Native) (distinct : (ns.map Native.name).Nodup)
    (apart : ∀ a ∈ ns, ∀ b ∈ ns, ∀ name short,
      Native.Named a.name none name → ¬Native.Named b.name (some name) short) :
    ∃ g, ns.foldlM register empty = .ok g ∧
      (∀ name n, g.get? name = some n ↔ n ∈ ns ∧ n.name = name) ∧
      (∀ name, g.contains name = true ↔ ∃ n ∈ ns, n.name = name) ∧ g.size = ns.length ∧
      (∀ limits, (g.install (.bare limits)).Offers ns) ∧
      ∀ (n : Native) (q : Ref .native) (host : Host) (m : Machine),
        m.heap.natives.get? q = some n → n.Guarded q host m := by
  refine ⟨⟨ns⟩, foldlM_register empty distinct, fun name n => get?_eq_some_iff distinct, fun name => contains_iff, rfl,
    fun limits => ?_, fun n q host m stored args => ⟨?_, ?_, ?_⟩⟩
  · exact (installed limits ⟨distinct, apart⟩).offers
  · exact Exec.invokeNative_answers host args stored
  · exact fun start wanted => Exec.callAt_answers host wanted stored
  · exact fun serve time => Machine.callValue_answers host serve time args stored

/-- Two libraries, one of which has the name of the other in front of its own, share nothing. -/
theorem Registry.installation_complete_nested :
    let ns : List Native := [⟨"f", .host "f", 0⟩, ⟨"lib.g", .host "g", 1⟩, ⟨"lib.sub.h", .host "h", 0⟩]
    (ns.map Native.name).Nodup ∧
    (∀ a ∈ ns, ∀ b ∈ ns, ∀ name short,
      Native.Named a.name none name → ¬Native.Named b.name (some name) short) ∧
    ∃ g, ns.foldlM register empty = .ok g ∧ ∀ limits, ∃ t q,
      let m := g.install (.bare limits)
      m.global "lib" = .table t ∧ (m.heap.table t).getStr "g" = .native q ∧ (m.heap.table t).getStr "h" = .nil ∧
      ∀ host, Exec.invokeNative host q [] m = .raise (.runtime (.badArgument 1 "g" "value expected")) m := by
  intro ns
  have distinct : (ns.map Native.name).Nodup := by decide +kernel
  have compatible : Compatible ns := compatible_of_parts distinct (by decide +kernel)
  refine ⟨distinct, compatible.apart, ?_⟩
  obtain ⟨g, registered, -, -, -, offers, guarded⟩ := installation_complete ns distinct compatible.apart
  refine ⟨g, registered, fun limits => ?_⟩
  have named : Native.Named "lib.g" (some "lib") "g" := Native.named_iff.2 (by decide +kernel)
  have mem : (⟨"lib.g", .host "g", 1⟩ : Native) ∈ ns := by decide
  obtain ⟨t, isTable, -, -, functions, only⟩ := (offers limits).library "lib" ⟨_, mem, "g", named⟩
  obtain ⟨q, isFunction, stored⟩ := functions _ mem "g" named
  refine ⟨t, q, isTable, isFunction, ?_, fun host => ?_⟩
  · by_contra live
    obtain ⟨n, mem, short, named, same⟩ := only (.ofString "h") live
    have other : ∀ n ∈ ns, Native.libraryOf? n.name = some "lib" → Native.shortNameOf n.name ≠ "h" := by decide +kernel
    exact other n mem named.parts.1 (named.parts.2.trans (Key.ofString_inj.1 same).symm)
  · have answers := (guarded _ q host (g.install (.bare limits)) stored []).1
    generalize Exec.invokeNative host q [] (g.install (.bare limits)) = x at answers ⊢
    cases answers with
    | refused few named' fault =>
      obtain rfl := (named'.unique named).2
      rw [fault]
      rfl
    | ran enough => exact absurd enough (by decide)

end RegisterMachine
