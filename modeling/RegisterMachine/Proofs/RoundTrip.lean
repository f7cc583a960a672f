import RegisterMachine.Proofs.Layout

/-! Writing and reading chunks. What is written are the cells of a tree, what is read is any spelling of
the cells of a tree that fits into the format; so a chunk that is read again is the tree that was
written, a chunk that is written again differs in its flags at most, and none goes on with another. -/
namespace RegisterMachine
namespace Chunk

@[simp]
theorem Cell.write_comp_byte : Cell.write ∘ Cell.byte = id := rfl

@[simp]
theorem map_write_numberCells (width n : Nat) :
    (numberCells width n).map Cell.write = littleEndian width n := by
  simp [numberCells]

@[simp]
theorem map_write_textCells (s : String) : (textCells s).map Cell.write = writeText s := by
  simp [textCells]

theorem writeLength_eq_ok_iff {n : Nat} {bytes : List UInt8} :
    writeLength n = .ok bytes ↔ n < 2 ^ 32 ∧ littleEndian 4 n = bytes := by
  rw [writeLength]
  split
  · rename_i small
    simp [small]
  · rename_i large
    simp [large]

theorem writeConstant_eq_ok_iff {v : Value} {bytes : List UInt8} :
    writeConstant v = .ok bytes ↔ isLiteral v ∧ (constantCells v).map Cell.write = bytes := by
  cases v with
  | bool b => cases b <;> simp [writeConstant, isLiteral, constantCells, Cell.write]
  | _ => simp [writeConstant, isLiteral, constantCells, Cell.write]

/-- Writing a list is writing its items one after the other. -/
theorem writeAll_eq_ok_iff {α : Type} (one : α → Except WriteFault (List UInt8))
    (all : List α → Except WriteFault (List UInt8)) (nil : all [] = .ok [])
    (cons : ∀ a as, all (a :: as) = do
      let bytes ← one a
      return bytes ++ (← all as))
    {Fits : α → Prop} {cells : α → List Cell} {as : List α}
    (h : ∀ a ∈ as, ∀ bytes, one a = .ok bytes ↔ Fits a ∧ (cells a).map Cell.write = bytes)
    {bytes : List UInt8} :
    all as = .ok bytes ↔ (∀ a ∈ as, Fits a) ∧ (as.flatMap cells).map Cell.write = bytes := by
  induction as generalizing bytes with
  | nil => simp [nil]
  | cons a as ih =>
    have ih := @ih fun a mem => h a (List.mem_cons_of_mem _ mem)
    simp only [cons, bind_eq_ok_iff, h a List.mem_cons_self, ih, pure, Except.pure, Except.ok.injEq,
      List.forall_mem_cons, List.flatMap_cons, List.map_append]
    constructor
    · rintro ⟨_, ⟨first, rfl⟩, _, ⟨all, rfl⟩, rfl⟩
      exact ⟨⟨first, all⟩, rfl⟩
    · rintro ⟨⟨first, all⟩, rfl⟩
      exact ⟨_, ⟨first, rfl⟩, _, ⟨all, rfl⟩, rfl⟩

theorem writeConstants_eq_ok_iff {vs : List Value} {bytes : List UInt8} :
    writeConstants vs = .ok bytes ↔
      (∀ v ∈ vs, isLiteral v) ∧ (vs.flatMap constantCells).map Cell.write = bytes :=
  writeAll_eq_ok_iff writeConstant writeConstants rfl (fun _ _ => rfl) fun _ _ _ => writeConstant_eq_ok_iff

@[simp]
theorem map_write_wordCells (w : Word) :
    (wordCells w).map Cell.write = littleEndian 4 w.bits.toNat := by
  simp [wordCells]

@[simp]
theorem map_write_positionCells (p : Position) :
    (positionCells p).map Cell.write = writePosition p := by
  simp [positionCells, writePosition]

@[simp]
theorem map_write_captureCells (c : Capture) : (captureCells c).map Cell.write = writeCapture c := by
  simp [captureCells, writeCapture, Cell.write]

theorem writeOwn_eq_ok_iff {p : Prototype} {bytes : List UInt8} :
    writeOwn p = .ok bytes ↔
      (p.positions.size = p.code.size ∧ p.code.size < 2 ^ 32 ∧ p.constants.size < 2 ^ 32 ∧
        (∀ v ∈ p.constants.toList, isLiteral v) ∧ p.captures.size < 2 ^ 32) ∧
      (ownCells p).map Cell.write = bytes := by
  simp only [writeOwn, check_eq_ok, bind_eq_ok_iff, writeLength_eq_ok_iff, writeConstants_eq_ok_iff, pure,
    Except.pure, Except.ok.injEq, not_not, ownCells, List.map_append, List.map_flatMap, map_write_textCells,
    map_write_numberCells, map_write_wordCells, map_write_positionCells, map_write_captureCells]
  constructor
  · rintro ⟨parallel, _, ⟨code, rfl⟩, _, ⟨constants, rfl⟩, _, ⟨literals, rfl⟩, _, ⟨captures, rfl⟩, rfl⟩
    exact ⟨⟨parallel, code, constants, literals, captures⟩, by simp [Cell.write]⟩
  · rintro ⟨⟨parallel, code, constants, literals, captures⟩, rfl⟩
    exact ⟨parallel, _, ⟨code, rfl⟩, _, ⟨constants, rfl⟩, _, ⟨literals, rfl⟩, _, ⟨captures, rfl⟩,
      by simp [Cell.write]⟩

theorem writePrototype_eq (p : Prototype) : writePrototype p = do
    let own ← writeOwn p
    let length ← writeLength p.children.length
    return own ++ length ++ (← writePrototypes p.children) := by
  cases p
  rw [writePrototype]

theorem writePrototype_eq_ok_iff {p : Prototype} {bytes : List UInt8} :
    writePrototype p = .ok bytes ↔
      p.Everywhere Prototype.Writable ∧ (prototypeCells p).map Cell.write = bytes := by
  induction p using Prototype.induction generalizing bytes with
  | h p ih =>
    have children := @writeAll_eq_ok_iff _ writePrototype writePrototypes (by rw [writePrototypes])
      (fun _ _ => by rw [writePrototypes]) _ _ p.children fun c mem _ => ih c mem
    simp only [writePrototype_eq, bind_eq_ok_iff, writeOwn_eq_ok_iff, writeLength_eq_ok_iff, children, pure,
      Except.pure, Except.ok.injEq, prototypeCells_eq, List.map_append, map_write_numberCells,
      Prototype.everywhere_iff (p := p)]
    constructor
    · rintro ⟨_, ⟨⟨parallel, code, constants, literals, captures⟩, rfl⟩, _, ⟨few, rfl⟩, _, ⟨all, rfl⟩, rfl⟩
      exact ⟨⟨⟨parallel, literals, code, constants, captures, few⟩, all⟩, rfl⟩
    · rintro ⟨⟨here, all⟩, rfl⟩
      exact ⟨_, ⟨⟨here.positions, here.code, here.constants, here.literals, here.captures⟩, rfl⟩,
        _, ⟨here.children, rfl⟩, _, ⟨all, rfl⟩, rfl⟩

def chunkCells (p : Prototype) : List Cell := header.map .byte ++ prototypeCells p

/-- What is written are the cells of a tree. -/
theorem write_eq_ok_iff {p : Prototype} {bytes : List UInt8} :
    write p = .ok bytes ↔
      p.Everywhere Prototype.Writable ∧ (chunkCells p).map Cell.write = bytes := by
  simp only [write, bind_eq_ok_iff, writePrototype_eq_ok_iff, pure, Except.pure, Except.ok.injEq,
    chunkCells, List.map_append, List.map_map, Cell.write_comp_byte, List.map_id]
  constructor
  · rintro ⟨_, ⟨writable, rfl⟩, rfl⟩
    exact ⟨writable, rfl⟩
  · rintro ⟨writable, rfl⟩
    exact ⟨_, ⟨writable, rfl⟩, rfl⟩

theorem parses_version : Parses readVersion TextFits textCells := by
  intro bytes v rest
  rw [← parses_text, readVersion]
  cases readText bytes <;> simp

theorem read_eq_ok_iff {bytes : List UInt8} {p : Prototype} :
    read bytes = .ok p ↔ Loadable maxNesting p ∧ Spells (chunkCells p) bytes [] := by
  simp only [read, check_eq_ok, parses_version.bind_eq_ok, (parses_prototype _).bind_eq_ok, pure,
    Except.pure, Except.ok.injEq, chunkCells, header, textCells, List.map_append, List.append_assoc, spells_append,
    spells_bytes, not_not]
  constructor
  · rintro ⟨-, front, _, mid, -, back, rfl, q, rest, loadable, spells, ended, rfl⟩
    have none : rest = [] := by simpa using ended
    have split := List.take_append_drop signature.length bytes
    rw [front] at split
    exact ⟨loadable, _, split.symm, mid, back, none ▸ spells⟩
  · rintro ⟨loadable, mid, rfl, mid', rfl, spells⟩
    have fits : TextFits version := by decide +kernel
    exact ⟨by simp, by simp, version, mid', fits, by simp, rfl, p, [], loadable, spells, by simp, rfl⟩

end Chunk

namespace Prototype

theorem NestedWithin.mono {p : Prototype} {m n : Nat} (h : p.NestedWithin m) (le : m ≤ n) :
    p.NestedWithin n := by
  induction m generalizing p n with
  | zero => exact absurd h id
  | succ m ih =>
    obtain ⟨n, rfl⟩ : ∃ k, n = k + 1 := ⟨n - 1, by omega⟩
    exact fun c mem => ih (h c mem) (by omega)

theorem exists_forall_nestedWithin {ps : List Prototype} (each : ∀ p ∈ ps, ∃ n, p.NestedWithin n) :
    ∃ n, ∀ p ∈ ps, p.NestedWithin n := by
  induction ps with
  | nil => exact ⟨0, by simp⟩
  | cons p ps ih =>
    obtain ⟨m, first⟩ := each p List.mem_cons_self
    obtain ⟨n, others⟩ := ih fun q mem => each q (List.mem_cons_of_mem _ mem)
    refine ⟨max m n, List.forall_mem_cons.2 ⟨first.mono (Nat.le_max_left m n), ?_⟩⟩
    exact fun q mem => (others q mem).mono (Nat.le_max_right m n)

theorem exists_nestedWithin (p : Prototype) : ∃ n, p.NestedWithin n := by
  induction p using Prototype.induction with
  | h p ih =>
    obtain ⟨n, below⟩ := exists_forall_nestedWithin ih
    exact ⟨n + 1, below⟩

end Prototype

namespace Chunk

variable {p q : Prototype} {bytes : List UInt8}

/-- Bytes spell one tree at most. -/
theorem eq_of_spells (hp : p.Everywhere Prototype.Writable ∧ p.Everywhere Prototype.TextsFit)
    (hq : q.Everywhere Prototype.Writable ∧ q.Everywhere Prototype.TextsFit)
    {rest rest' : List UInt8} (h : Spells (prototypeCells p) bytes rest)
    (h' : Spells (prototypeCells q) bytes rest') : p = q ∧ rest = rest' := by
  -- reading with levels enough for both gives the one and the other
  obtain ⟨m, hm⟩ := p.exists_nestedWithin
  obtain ⟨n, hn⟩ := q.exists_nestedWithin
  have first := (parses_prototype (max m n) bytes p rest).2
    ⟨⟨hp.1, hp.2, hm.mono (Nat.le_max_left m n)⟩, h⟩
  have second := (parses_prototype (max m n) bytes q rest').2
    ⟨⟨hq.1, hq.2, hn.mono (Nat.le_max_right m n)⟩, h'⟩
  simpa using first.symm.trans second

theorem spells_chunkCells_iff {rest : List UInt8} :
    Spells (chunkCells p) bytes rest ↔
      ∃ body, bytes = header ++ body ∧ Spells (prototypeCells p) body rest := by
  simp only [chunkCells, spells_append, spells_bytes]

theorem read_written (writable : p.Everywhere Prototype.Writable)
    (fits : p.Everywhere Prototype.TextsFit) :
    read ((chunkCells p).map Cell.write) = .ok q ↔ q = p ∧ p.NestedWithin maxNesting := by
  have written : Spells (chunkCells p) ((chunkCells p).map Cell.write) [] := by
    simpa using spells_write (chunkCells p) []
  rw [read_eq_ok_iff]
  constructor
  · rintro ⟨⟨writable', fits', nested⟩, spells⟩
    obtain ⟨body, eq, spells⟩ := spells_chunkCells_iff.1 spells
    obtain ⟨body', eq', written⟩ := spells_chunkCells_iff.1 written
    obtain rfl := List.append_cancel_left (eq.symm.trans eq')
    obtain ⟨rfl, -⟩ := eq_of_spells ⟨writable', fits'⟩ ⟨writable, fits⟩ spells written
    exact ⟨rfl, nested⟩
  · rintro ⟨rfl, nested⟩
    exact ⟨⟨writable, fits, nested⟩, written⟩

/-- A tree that fits into the format is written, and read back as it was. -/
theorem read_write (writable : p.Everywhere Prototype.Writable)
    (fits : p.Everywhere Prototype.TextsFit) (nested : p.NestedWithin maxNesting) :
    ∃ bytes, write p = .ok bytes ∧ read bytes = .ok p :=
  ⟨_, write_eq_ok_iff.2 ⟨writable, rfl⟩, (read_written writable fits).2 ⟨rfl, nested⟩⟩

/-- A function that nests another, with every kind of constant. -/
def sample : Prototype :=
  { name := "main", source := "sample", isVararg := true, window := 4,
    code := #[⟨0x0001⟩, ⟨0x1006e⟩], positions := #[⟨1, 1⟩, ⟨2, 1⟩],
    constants := #[.float ⟨0x3fe0000000000000⟩, .str "name", .int (-3), .bool true, .nil],
    captures := #[⟨"_ENV", true, 0⟩],
    children := [{ name := "inner", source := "", params := 1, captures := #[⟨"x", false, 0⟩] }] }

theorem sample_loadable : Loadable maxNesting sample := by decide +kernel

theorem read_write_sample : ∃ bytes, write sample = .ok bytes ∧ read bytes = .ok sample :=
  read_write sample_loadable.1 sample_loadable.2.1 sample_loadable.2.2

/-- What is written is read exactly if it is not nested too deeply for the reader. -/
theorem loads_iff_nestedWithin (written : write p = .ok bytes)
    (fits : p.Everywhere Prototype.TextsFit) :
    (∃ q, read bytes = .ok q) ↔ p.NestedWithin maxNesting := by
  obtain ⟨writable, rfl⟩ := write_eq_ok_iff.1 written
  simp [read_written writable fits]

theorem loads_iff_nestedWithin_sample :
    ∃ bytes, write sample = .ok bytes ∧ ∃ q, read bytes = .ok q := by
  have written := write_eq_ok_iff.2 ⟨sample_loadable.1, rfl⟩
  exact ⟨_, written, (loads_iff_nestedWithin written sample_loadable.2.1).2 sample_loadable.2.2⟩

/-- As many functions around another as a number says. -/
def tower : Nat → Prototype
  | 0 => { name := "n", source := "" }
  | n + 1 => { name := "n", source := "", children := [tower n] }

/-- A tree with one level more than the reader takes is written, and not read. -/
theorem tower_refused : ∃ bytes, write (tower 200) = .ok bytes ∧ ∀ q, read bytes ≠ .ok q := by
  have fits : Loadable 201 (tower 200) := by decide +kernel
  have deep : ¬ (tower 200).NestedWithin maxNesting := by decide +kernel
  refine ⟨_, write_eq_ok_iff.2 ⟨fits.1, rfl⟩, fun q loaded => ?_⟩
  exact deep ((read_written fits.1 fits.2.1).1 loaded).2

theorem getElem?_of_reads {cells : List Cell} (all : List.Forall₂ Cell.Reads cells bytes) (i : Nat) :
    (cells[i]? = none ∧ bytes[i]? = none) ∨
      ∃ c b, cells[i]? = some c ∧ bytes[i]? = some b ∧ c.Reads b := by
  induction all generalizing i with
  | nil => simp
  | cons reads _ ih =>
    cases i with
    | zero => exact .inr ⟨_, _, rfl, rfl, reads⟩
    | succ i => simpa using ih i

theorem Cell.write_of_reads_flag {f : Bool} {b : UInt8} (h : (Cell.flag f).Reads b) :
    (Cell.flag f).write = if b = 0 then 0 else 1 := by
  obtain rfl : (b != 0) = f := h
  by_cases zero : b = 0 <;> simp [Cell.write, writeFlag, zero]

def FlagAt (p : Prototype) (i : Nat) : Prop := ∃ f, (chunkCells p)[i]? = some (.flag f)

/-- What is read is written again, with every flag that is not zero as one. -/
theorem write_read (h : read bytes = .ok p) :
    ∃ written, write p = .ok written ∧ written.length = bytes.length ∧
      (∀ i, ¬ FlagAt p i → written[i]? = bytes[i]?) ∧
      (∀ i, FlagAt p i → written[i]? = bytes[i]?.map fun b => if b = 0 then 0 else 1) ∧
      read written = .ok p := by
  obtain ⟨⟨writable, fits, nested⟩, spells⟩ := read_eq_ok_iff.1 h
  have all := spells_nil_iff.1 spells
  refine ⟨_, write_eq_ok_iff.2 ⟨writable, rfl⟩, ?_, ?_, ?_, (read_written writable fits).2 ⟨rfl, nested⟩⟩
  · simp [spells.length]
  · intro i other
    rcases getElem?_of_reads all i with ⟨none, none'⟩ | ⟨c, b, cell, byte, reads⟩
    · simp [none, none']
    · cases c with
      | byte c =>
        obtain rfl : b = c := reads
        simp [cell, byte, Cell.write]
      | flag f => exact absurd ⟨f, cell⟩ other
  · rintro i ⟨f, cell⟩
    rcases getElem?_of_reads all i with ⟨none, -⟩ | ⟨c, b, cell', byte, reads⟩
    · simp [cell] at none
    · obtain rfl : Cell.flag f = c := by simpa [cell] using cell'
      simp [cell, byte, Cell.write_of_reads_flag reads]

/-- The flags of a function and of its variable are neither zero nor one. -/
theorem write_read_flags :
    let p : Prototype := { name := "f", source := "", isVararg := true, captures := #[⟨"x", true, 0⟩] }
    let bytes : List UInt8 := header ++ [1, 0, 0, 0, 0x66, 0, 0, 0, 0, 0, 0, 0, 0, 0, 7, 2, 0,
      0, 0, 0, 0, 0, 0, 0, 0, 1, 0, 0, 0, 1, 0, 0, 0, 0x78, 9, 0, 0, 0, 0, 0]
    read bytes = .ok p ∧ bytes[32]? = some 7 ∧ bytes[52]? = some 9 ∧
      ∃ written, write p = .ok written ∧ written.length = bytes.length ∧
        written[32]? = some 1 ∧ written[52]? = some 1 ∧ read written = .ok p := by
  intro p bytes
  have loaded : read bytes = .ok p := rfl
  obtain ⟨written, eq, length, -, flags, again⟩ := write_read loaded
  have first : FlagAt p 32 := ⟨true, rfl⟩
  have second : FlagAt p 52 := ⟨true, rfl⟩
  refine ⟨loaded, rfl, rfl, written, eq, length, ?_, ?_, again⟩
  · rw [flags 32 first]
    rfl
  · rw [flags 52 second]
    rfl

theorem eq_nil_of_read_append {extra : List UInt8} (h : read bytes = .ok p)
    (h' : read (bytes ++ extra) = .ok q) : extra = [] := by
  obtain ⟨⟨writable, fits, -⟩, spells⟩ := read_eq_ok_iff.1 h
  obtain ⟨⟨writable', fits', -⟩, spells'⟩ := read_eq_ok_iff.1 h'
  obtain ⟨body, rfl, own⟩ := spells_chunkCells_iff.1 spells
  obtain ⟨body', eq, own'⟩ := spells_chunkCells_iff.1 spells'
  rw [List.append_assoc] at eq
  obtain rfl := List.append_cancel_left eq
  -- the longer body spells the shorter one's tree too, and leaves what was added
  have longer : Spells (prototypeCells p) (body ++ extra) extra := own.append extra
  exact (eq_of_spells ⟨writable, fits⟩ ⟨writable', fits'⟩ longer own').2

theorem eq_of_read_of_front {bytes' : List UInt8} (h : read bytes = .ok p) (h' : read bytes' = .ok q)
    (front : bytes <+: bytes') : bytes = bytes' := by
  obtain ⟨extra, rfl⟩ := front
  rw [eq_nil_of_read_append h h', List.append_nil]

theorem exists_read_eq_error (h : ∀ q, read bytes ≠ .ok q) : ∃ f, read bytes = .error f := by
  cases eq : read bytes with
  | error f => exact ⟨f, rfl⟩
  | ok q => exact absurd eq (h q)

theorem header_of_read (h : read bytes = .ok p) : header <+: bytes := by
  obtain ⟨body, rfl, -⟩ := spells_chunkCells_iff.1 (read_eq_ok_iff.1 h).2
  exact ⟨body, rfl⟩

/-- A chunk that is read is refused when it is cut anywhere and when anything follows it, and begins
with the signature, the length of the version and the version. -/
theorem damaged_refused (h : read bytes = .ok p) :
    (∀ shorter, shorter <+: bytes → shorter ≠ bytes → ∃ f, read shorter = .error f) ∧
    (∀ longer, bytes <+: longer → longer ≠ bytes → ∃ f, read longer = .error f) ∧
    bytes.take 18 = [0x1b, 0x47, 0x6c, 0x6d, 10, 0, 0, 0,
      0x67, 0x6c, 0x6f, 0x61, 0x6d, 0x2d, 0x62, 0x63, 0x20, 0x31] := by
  refine ⟨fun shorter front other => ?_, fun longer front other => ?_, ?_⟩
  · exact exists_read_eq_error fun q cut => other (eq_of_read_of_front cut h front)
  · exact exists_read_eq_error fun q loaded => other (eq_of_read_of_front h loaded front).symm
  · obtain ⟨body, rfl⟩ := header_of_read h
    rfl

theorem damaged_refused_empty :
    let bytes := header ++ List.replicate 14 0 ++ 2 :: List.replicate 17 0
    read bytes = .ok { name := "", source := "" } ∧
      (∀ n < bytes.length, ∃ f, read (bytes.take n) = .error f) ∧
      (∃ f, read (bytes ++ [0]) = .error f) ∧ bytes.take 18 = header := by
  intro bytes
  have loaded : read bytes = .ok { name := "", source := "" } := rfl
  obtain ⟨cut, followed, front⟩ := damaged_refused loaded
  refine ⟨loaded, fun n short => cut _ (List.take_prefix n bytes) fun eq => ?_, ?_, front⟩
  · have := congrArg List.length eq
    simp only [List.length_take] at this
    omega
  · exact followed _ (List.prefix_append bytes [0]) (by simp)

end Chunk
end RegisterMachine
