import Mathlib.Algebra.Group.Nat.Defs
import Mathlib.Data.List.Forall2
import RegisterMachine.Chunk.Reader

/-! The layout of chunks. A value is laid out in cells, one for each byte; the readers accept the bytes
that spell the cells of a value that fits into the format, and no others. The only freedom is in the
flags, of which only counts whether they are zero. -/
namespace RegisterMachine
namespace Chunk

inductive Cell
  | byte (b : UInt8)
  | flag (f : Bool)
  deriving DecidableEq, Repr

namespace Cell

def write : Cell → UInt8
  | .byte b => b
  | .flag f => writeFlag f

def Reads : Cell → UInt8 → Prop
  | .byte b, c => c = b
  | .flag f, c => (c != 0) = f

theorem reads_write (c : Cell) : c.Reads c.write := by
  cases c with
  | byte b => rfl
  | flag f => cases f <;> rfl

end Cell

def Spells : List Cell → List UInt8 → List UInt8 → Prop
  | [], bytes, rest => bytes = rest
  | c :: cells, bytes, rest => ∃ b tail, bytes = b :: tail ∧ c.Reads b ∧ Spells cells tail rest

theorem spells_append {cells cells' : List Cell} {bytes rest : List UInt8} :
    Spells (cells ++ cells') bytes rest ↔ ∃ mid, Spells cells bytes mid ∧ Spells cells' mid rest := by
  induction cells generalizing bytes with
  | nil => simp [Spells]
  | cons c cells ih =>
    simp only [List.cons_append, Spells, ih]
    constructor
    · rintro ⟨b, tail, rfl, reads, mid, front, back⟩
      exact ⟨mid, ⟨b, tail, rfl, reads, front⟩, back⟩
    · rintro ⟨mid, ⟨b, tail, rfl, reads, front⟩, back⟩
      exact ⟨b, tail, rfl, reads, mid, front, back⟩

theorem spells_bytes {front bytes rest : List UInt8} :
    Spells (front.map .byte) bytes rest ↔ bytes = front ++ rest := by
  induction front generalizing bytes with
  | nil => simp [Spells]
  | cons b front ih => simp [Spells, Cell.Reads, ih]

theorem spells_tagged {tag : UInt8} {cells : List Cell} {bytes rest : List UInt8} :
    Spells (.byte tag :: cells) bytes rest ↔
      ∃ mid, Spells [.byte tag] bytes mid ∧ Spells cells mid rest := by
  rw [← spells_append, List.singleton_append]

theorem spells_write (cells : List Cell) (rest : List UInt8) :
    Spells cells (cells.map Cell.write ++ rest) rest := by
  induction cells with
  | nil => rfl
  | cons c cells ih => exact ⟨_, _, rfl, c.reads_write, ih⟩

theorem Spells.length {cells : List Cell} {bytes rest : List UInt8} (h : Spells cells bytes rest) :
    bytes.length = cells.length + rest.length := by
  induction cells generalizing bytes with
  | nil => simp [show bytes = rest from h]
  | cons c cells ih =>
    obtain ⟨b, tail, rfl, -, h⟩ := h
    simp [ih h]
    omega

theorem Spells.append {cells : List Cell} {bytes rest : List UInt8} (h : Spells cells bytes rest)
    (extra : List UInt8) : Spells cells (bytes ++ extra) (rest ++ extra) := by
  induction cells generalizing bytes with
  | nil => rw [show bytes = rest from h]; rfl
  | cons c cells ih =>
    obtain ⟨b, tail, rfl, reads, h⟩ := h
    exact ⟨b, tail ++ extra, rfl, reads, ih h⟩

theorem spells_nil_iff {cells : List Cell} {bytes : List UInt8} :
    Spells cells bytes [] ↔ List.Forall₂ Cell.Reads cells bytes := by
  induction cells generalizing bytes with
  | nil => simp [Spells]
  | cons c cells ih =>
    simp only [Spells, ih, List.forall₂_cons_left_iff]
    constructor
    · rintro ⟨b, tail, eq, reads, all⟩
      exact ⟨b, tail, reads, all, eq⟩
    · rintro ⟨b, tail, reads, all, eq⟩
      exact ⟨b, tail, eq, reads, all⟩

@[simp]
theorem length_littleEndian (width n : Nat) : (littleEndian width n).length = width := by
  induction width generalizing n with
  | zero => rfl
  | succ width ih => simp [littleEndian, ih]

theorem ofLittleEndian_lt (bytes : List UInt8) : ofLittleEndian bytes < 256 ^ bytes.length := by
  induction bytes with
  | nil => simp [ofLittleEndian]
  | cons b bytes ih =>
    have := b.toNat_lt
    simp only [ofLittleEndian, List.length_cons, Nat.pow_succ]
    omega

theorem ofLittleEndian_littleEndian {width n : Nat} (h : n < 256 ^ width) :
    ofLittleEndian (littleEndian width n) = n := by
  induction width generalizing n with
  | zero => simp_all [littleEndian, ofLittleEndian]
  | succ width ih =>
    have : n / 256 < 256 ^ width := by
      rw [Nat.pow_succ] at h
      omega
    simp only [littleEndian, ofLittleEndian, ih this, UInt8.toNat_ofNat']
    omega

theorem littleEndian_ofLittleEndian (bytes : List UInt8) :
    littleEndian bytes.length (ofLittleEndian bytes) = bytes := by
  induction bytes with
  | nil => rfl
  | cons b bytes ih =>
    have small := b.toNat_lt
    have rest : (b.toNat + 256 * ofLittleEndian bytes) / 256 = ofLittleEndian bytes := by omega
    have first : UInt8.ofNat (b.toNat + 256 * ofLittleEndian bytes) = b := by
      apply UInt8.toNat_inj.1
      simp
    simp only [ofLittleEndian, List.length_cons, littleEndian, rest, first, ih]

theorem splitBytes?_eq_some_iff {n : Nat} {bytes front rest : List UInt8} :
    splitBytes? n bytes = some (front, rest) ↔ bytes = front ++ rest ∧ front.length = n := by
  induction n generalizing bytes front with
  | zero => cases front <;> simp [splitBytes?]
  | succ n ih =>
    cases bytes with
    | nil => cases front <;> simp [splitBytes?]
    | cons b bytes => cases front <;> simp [splitBytes?, ih, and_assoc, and_comm]

theorem bind_eq_ok_iff {ε α β : Type} {x : Except ε α} {next : α → Except ε β} {b : β} :
    (x >>= next) = .ok b ↔ ∃ a, x = .ok a ∧ next a = .ok b := by
  cases x <;> simp [bind, Except.bind]

/-- A check before a computation. -/
theorem check_eq_ok {ε β γ : Type} {c : Prop} [Decidable c] {f : ε} {next : γ → Except ε β}
    {other : Except ε β} {b : β} :
    (if c then throw f >>= next else other) = .ok b ↔ ¬ c ∧ other = .ok b := by
  by_cases h : c
  · simp [h, bind_eq_ok_iff]
  · simp [h]

def Parses {α : Type} (reader : Reader α) (Fits : α → Prop) (cells : α → List Cell) : Prop :=
  ∀ bytes a rest, reader bytes = .ok (a, rest) ↔ Fits a ∧ Spells (cells a) bytes rest

section

variable {α β : Type} {reader : Reader α} {Fits : α → Prop} {cells : α → List Cell}
  {bytes rest : List UInt8}

theorem Parses.bind_eq_ok (h : Parses reader Fits cells)
    {next : α × List UInt8 → Except ReadFault β} {b : β} :
    (reader bytes >>= next) = .ok b ↔
      ∃ a rest, Fits a ∧ Spells (cells a) bytes rest ∧ next (a, rest) = .ok b := by
  simp only [← and_assoc, ← h bytes, bind_eq_ok_iff, Prod.exists]

/-- A part is read, and then the others. What was read before is as in the whole, and so is the part. -/
theorem Parses.seq (h : Parses reader Fits cells) (part : α) {next : α × List UInt8 → Except ReadFault (β × List UInt8)}
    {whole : β} {Before Fits' Others : Prop} {others : List Cell} (hfits : Before → (Fits part ↔ Fits'))
    (hnext : ∀ a, Fits a → ∀ mid, next (a, mid) = .ok (whole, rest) ↔
      (a = part ∧ Before) ∧ Others ∧ Spells others mid rest) :
    (reader bytes >>= next) = .ok (whole, rest) ↔
      Before ∧ (Fits' ∧ Others) ∧ Spells (cells part ++ others) bytes rest := by
  rw [h.bind_eq_ok, spells_append]
  constructor
  · rintro ⟨a, mid, fits, front, read⟩
    obtain ⟨⟨rfl, before⟩, fit, back⟩ := (hnext a fits mid).1 read
    exact ⟨before, ⟨(hfits before).1 fits, fit⟩, mid, front, back⟩
  · rintro ⟨before, ⟨fits, fit⟩, mid, front, back⟩
    have fits := (hfits before).2 fits
    exact ⟨part, mid, fits, front, (hnext part fits mid).2 ⟨⟨rfl, before⟩, fit, back⟩⟩

/-- What follows rules out what is checked. -/
theorem check_seq {c Before Fits : Prop} [Decidable c] {f : ReadFault} {γ : Type}
    {next : γ → Except ReadFault (β × List UInt8)} {other : Except ReadFault (β × List UInt8)} {whole : β}
    {others : List Cell} (hc : Before → Fits → Spells others bytes rest → ¬c)
    (hother : other = .ok (whole, rest) ↔ Before ∧ Fits ∧ Spells others bytes rest) :
    (if c then throw f >>= next else other) = .ok (whole, rest) ↔ Before ∧ Fits ∧ Spells others bytes rest := by
  rw [check_eq_ok, hother]
  exact and_iff_right_of_imp fun ⟨before, fits, spells⟩ => hc before fits spells

/-- All parts are read. -/
theorem pure_seq {whole b : β} {Before : Prop} (h : b = whole ↔ Before) :
    (pure (b, bytes) : Except ReadFault (β × List UInt8)) = .ok (whole, rest) ↔
      Before ∧ True ∧ Spells [] bytes rest := by
  simp [pure, Except.pure, h, Spells]

theorem parses_many (h : Parses reader Fits cells) (n : Nat) :
    Parses (readMany reader n) (fun as => as.length = n ∧ ∀ a ∈ as, Fits a)
      (fun as => as.flatMap cells) := by
  induction n with
  | zero =>
    intro bytes as rest
    cases as <;> simp [readMany, Spells]
  | succ n ih =>
    intro bytes as rest
    simp only [readMany, h.bind_eq_ok, ih.bind_eq_ok]
    cases as with
    | nil => simp [pure, Except.pure]
    | cons a as =>
      simp only [pure, Except.pure, Except.ok.injEq, Prod.mk.injEq, List.cons.injEq,
        List.length_cons, List.flatMap_cons, spells_append]
      constructor
      · rintro ⟨_, mid, fits, front, _, _, ⟨length, all⟩, back, ⟨rfl, rfl⟩, rfl⟩
        exact ⟨⟨by omega, by simpa using ⟨fits, all⟩⟩, mid, front, back⟩
      · rintro ⟨⟨length, all⟩, mid, front, back⟩
        exact ⟨a, mid, all a (by simp), front, as, rest,
          ⟨by omega, fun b mem => all b (by simp [mem])⟩, back, ⟨rfl, rfl⟩, rfl⟩

end

def numberCells (width n : Nat) : List Cell := (littleEndian width n).map .byte

theorem parses_number (width : Nat) :
    Parses (readNumber width) (· < 256 ^ width) (numberCells width) := by
  intro bytes n rest
  rw [readNumber, numberCells, spells_bytes]
  constructor
  · intro h
    split at h
    · rename_i front rest' split
      obtain ⟨rfl, length⟩ := splitBytes?_eq_some_iff.1 split
      cases h
      subst length
      exact ⟨ofLittleEndian_lt front, by rw [littleEndian_ofLittleEndian]⟩
    · cases h
  · rintro ⟨small, rfl⟩
    rw [splitBytes?_eq_some_iff.2 ⟨rfl, length_littleEndian width n⟩]
    simp [ofLittleEndian_littleEndian small]

theorem parses_byte : Parses readByte (fun _ => True) (fun b => [.byte b]) := by
  intro bytes b rest
  simp only [readByte, (parses_number 1).bind_eq_ok, pure, Except.pure, Except.ok.injEq,
    Prod.mk.injEq, true_and]
  constructor
  · rintro ⟨n, _, small, spells, rfl, rfl⟩
    exact spells
  · intro spells
    have small := b.toNat_lt
    refine ⟨b.toNat, rest, by omega, ?_, by simp, rfl⟩
    simpa [numberCells, littleEndian] using spells

theorem parses_flag : Parses readFlag (fun _ => True) (fun f => [.flag f]) := by
  intro bytes f rest
  simp [readFlag, parses_byte.bind_eq_ok, pure, Except.pure, Spells, Cell.Reads]

theorem ofUtf8_eq_ok_iff {bytes : List UInt8} {s : String} :
    Text.ofUtf8 bytes = .ok s ↔ bytes = Text.toUtf8 s := by
  rw [Text.ofUtf8, Text.toUtf8, String.fromUTF8?]
  constructor
  · intro h
    split at h
    · rename_i s' valid
      cases h
      split at valid
      · cases valid
        rfl
      · cases valid
    · cases h
  · rintro rfl
    have valid := s.isValidUTF8
    simp [String.toUTF8, valid, String.fromUTF8]

def TextFits (s : String) : Prop := (Text.toUtf8 s).length < 2 ^ 32

instance (s : String) : Decidable (TextFits s) := inferInstanceAs (Decidable (_ < _))

def textCells (s : String) : List Cell := (writeText s).map .byte

theorem parses_text : Parses readText TextFits textCells := by
  intro bytes s rest
  simp only [readText, (parses_number 4).bind_eq_ok, numberCells, textCells, writeText, spells_bytes,
    List.append_assoc]
  constructor
  · rintro ⟨n, mid, small, rfl, h⟩
    split at h
    · cases h
    · rename_i front rest' split
      obtain ⟨rfl, rfl⟩ := splitBytes?_eq_some_iff.1 split
      split at h
      · rename_i s' valid
        cases h
        obtain rfl := ofUtf8_eq_ok_iff.1 valid
        exact ⟨small, rfl⟩
      · cases h
  · rintro ⟨small, rfl⟩
    refine ⟨_, _, small, rfl, ?_⟩
    simp only [splitBytes?_eq_some_iff.2 ⟨rfl, rfl⟩, ofUtf8_eq_ok_iff.2 rfl]
    rfl

def wordCells (w : Word) : List Cell := numberCells 4 w.bits.toNat

theorem parses_word : Parses readWord (fun _ => True) wordCells := by
  intro bytes w rest
  simp only [readWord, (parses_number 4).bind_eq_ok, pure, Except.pure, Except.ok.injEq,
    Prod.mk.injEq, true_and]
  constructor
  · rintro ⟨n, _, small, spells, rfl, rfl⟩
    rwa [wordCells, UInt32.toNat_ofNat_of_lt' small]
  · intro spells
    exact ⟨_, rest, w.bits.toNat_lt, spells, by simp, rfl⟩

def positionCells (p : Position) : List Cell :=
  numberCells 4 p.line.toNat ++ numberCells 4 p.column.toNat

theorem parses_position : Parses readPosition (fun _ => True) positionCells := by
  intro bytes p rest
  simp only [readPosition, (parses_number 4).bind_eq_ok, pure, Except.pure, Except.ok.injEq,
    Prod.mk.injEq, true_and, positionCells, spells_append]
  constructor
  · rintro ⟨line, mid, smallLine, front, column, _, smallColumn, back, rfl, rfl⟩
    rw [UInt32.toNat_ofNat_of_lt' smallLine, UInt32.toNat_ofNat_of_lt' smallColumn]
    exact ⟨mid, front, back⟩
  · rintro ⟨mid, front, back⟩
    exact ⟨_, mid, p.line.toNat_lt, front, _, rest, p.column.toNat_lt, back, by simp, rfl⟩

/-- Whether a value can be written as a constant. -/
def isLiteral : Value → Bool
  | .nil | .bool _ | .int _ | .float _ | .str _ => true
  | _ => false

def ConstantFits : Value → Prop
  | .str s => TextFits s
  | _ => True

instance : DecidablePred ConstantFits
  | .str s => inferInstanceAs (Decidable (TextFits s))
  | .nil | .bool _ | .int _ | .float _ | .table _ | .closure _ | .native _ | .coroutine _ | .file _ =>
    isTrue trivial

def constantCells : Value → List Cell
  | .nil => [.byte 0]
  | .bool false => [.byte 1]
  | .bool true => [.byte 2]
  | .int i => .byte 3 :: numberCells 8 i.toUInt64.toNat
  | .float x => .byte 4 :: numberCells 8 x.bits.toNat
  | .str s => .byte 5 :: textCells s
  | _ => []

theorem parses_constant :
    Parses readConstant (fun v => isLiteral v ∧ ConstantFits v) constantCells := by
  intro bytes v rest
  simp only [readConstant, parses_byte.bind_eq_ok]
  constructor
  · rintro ⟨tag, mid, -, spells, h⟩
    split at h <;> rename_i tag_eq
    · obtain rfl : tag = 0 := UInt8.toNat_inj.1 tag_eq
      cases h
      exact ⟨⟨rfl, trivial⟩, spells⟩
    · obtain rfl : tag = 1 := UInt8.toNat_inj.1 tag_eq
      cases h
      exact ⟨⟨rfl, trivial⟩, spells⟩
    · obtain rfl : tag = 2 := UInt8.toNat_inj.1 tag_eq
      cases h
      exact ⟨⟨rfl, trivial⟩, spells⟩
    · obtain rfl : tag = 3 := UInt8.toNat_inj.1 tag_eq
      obtain ⟨n, _, small, number, h⟩ := (parses_number 8).bind_eq_ok.1 h
      cases h
      refine ⟨⟨rfl, trivial⟩, spells_tagged.2 ⟨mid, spells, ?_⟩⟩
      rwa [UInt64.toUInt64_toInt64, UInt64.toNat_ofNat_of_lt' small]
    · obtain rfl : tag = 4 := UInt8.toNat_inj.1 tag_eq
      obtain ⟨n, _, small, number, h⟩ := (parses_number 8).bind_eq_ok.1 h
      cases h
      refine ⟨⟨rfl, trivial⟩, spells_tagged.2 ⟨mid, spells, ?_⟩⟩
      rwa [UInt64.toNat_ofNat_of_lt' small]
    · obtain rfl : tag = 5 := UInt8.toNat_inj.1 tag_eq
      obtain ⟨s, _, fits, text, h⟩ := parses_text.bind_eq_ok.1 h
      cases h
      exact ⟨⟨rfl, fits⟩, spells_tagged.2 ⟨mid, spells, text⟩⟩
    · cases h
  · rintro ⟨⟨literal, fits⟩, spells⟩
    cases v with
    | nil => exact ⟨0, rest, trivial, spells, rfl⟩
    | bool b =>
      cases b
      · exact ⟨1, rest, trivial, spells, rfl⟩
      · exact ⟨2, rest, trivial, spells, rfl⟩
    | int i =>
      obtain ⟨mid, tag, number⟩ := spells_tagged.1 spells
      refine ⟨3, mid, trivial, tag, ?_⟩
      refine (parses_number 8).bind_eq_ok.2 ⟨_, rest, i.toUInt64.toNat_lt, number, ?_⟩
      simp [pure, Except.pure]
    | float x =>
      obtain ⟨mid, tag, number⟩ := spells_tagged.1 spells
      refine ⟨4, mid, trivial, tag, ?_⟩
      refine (parses_number 8).bind_eq_ok.2 ⟨_, rest, x.bits.toNat_lt, number, ?_⟩
      simp [pure, Except.pure]
    | str s =>
      obtain ⟨mid, tag, text⟩ := spells_tagged.1 spells
      refine ⟨5, mid, trivial, tag, ?_⟩
      exact parses_text.bind_eq_ok.2 ⟨s, rest, fits, text, rfl⟩
    | _ => cases literal

theorem parses_namedConstant (name : String) :
    Parses (readNamedConstant name) (fun v => isLiteral v ∧ ConstantFits v) constantCells := by
  intro bytes v rest
  rw [← parses_constant, readNamedConstant]
  cases readConstant bytes <;> simp

def captureCells (c : Capture) : List Cell :=
  textCells c.name ++ [.flag c.inRegister, .byte c.index]

theorem parses_capture : Parses readCapture (fun c => TextFits c.name) captureCells := by
  intro bytes c rest
  have parts : captureCells c = textCells c.name ++ ([.flag c.inRegister] ++ [.byte c.index]) := rfl
  simp only [readCapture, parses_text.bind_eq_ok, parses_flag.bind_eq_ok, parses_byte.bind_eq_ok,
    parts, spells_append, pure, Except.pure, Except.ok.injEq, Prod.mk.injEq, true_and]
  constructor
  · rintro ⟨name, mid, fits, text, inRegister, mid', flag, index, _, byte, rfl, rfl⟩
    exact ⟨fits, mid, text, mid', flag, byte⟩
  · rintro ⟨fits, mid, text, mid', flag, byte⟩
    exact ⟨_, mid, fits, text, _, mid', flag, _, rest, byte, rfl, rfl⟩

end Chunk

namespace Prototype

theorem induction {P : Prototype → Prop} (h : ∀ p : Prototype, (∀ c ∈ p.children, P c) → P p)
    (p : Prototype) : P p :=
  @Prototype.rec P (fun cs => ∀ c ∈ cs, P c) (fun _ _ _ _ _ _ _ _ _ _ _ all => h _ all) (by simp)
    (fun _ _ first all => List.forall_mem_cons.2 ⟨first, all⟩) p

/-- What holds of every prototype in a tree. -/
inductive Everywhere (P : Prototype → Prop) : Prototype → Prop
  | node {p : Prototype} : P p → (∀ c ∈ p.children, Everywhere P c) → Everywhere P p

theorem everywhere_iff {P : Prototype → Prop} {p : Prototype} :
    p.Everywhere P ↔ P p ∧ ∀ c ∈ p.children, c.Everywhere P :=
  ⟨fun | .node here below => ⟨here, below⟩, fun h => .node h.1 h.2⟩

/-- Trees that have no more levels than a number says. -/
def NestedWithin : Nat → Prototype → Prop
  | 0, _ => False
  | levels + 1, p => ∀ c ∈ p.children, c.NestedWithin levels

instance decidableNestedWithin : ∀ levels p, Decidable (NestedWithin levels p)
  | 0, _ => isFalse id
  | levels + 1, p =>
    have := decidableNestedWithin levels
    inferInstanceAs (Decidable (∀ c ∈ p.children, c.NestedWithin levels))

@[mk_iff]
structure Writable (p : Prototype) : Prop where
  positions : p.positions.size = p.code.size
  literals : ∀ v ∈ p.constants.toList, Chunk.isLiteral v
  code : p.code.size < 2 ^ 32
  constants : p.constants.size < 2 ^ 32
  captures : p.captures.size < 2 ^ 32
  children : p.children.length < 2 ^ 32

instance (p : Prototype) : Decidable p.Writable := decidable_of_iff _ (writable_iff p).symm

@[mk_iff]
structure TextsFit (p : Prototype) : Prop where
  name : Chunk.TextFits p.name
  source : Chunk.TextFits p.source
  constants : ∀ v ∈ p.constants.toList, Chunk.ConstantFits v
  captures : ∀ c ∈ p.captures.toList, Chunk.TextFits c.name

instance (p : Prototype) : Decidable p.TextsFit := decidable_of_iff _ (textsFit_iff p).symm

end Prototype

namespace Chunk

def ownCells (p : Prototype) : List Cell :=
  textCells p.name ++ textCells p.source ++ numberCells 4 p.line.toNat
    ++ [.byte p.params] ++ [.flag p.isVararg] ++ numberCells 2 p.window.toNat
    ++ numberCells 4 p.code.size ++ p.code.toList.flatMap wordCells
    ++ p.positions.toList.flatMap positionCells
    ++ numberCells 4 p.constants.size ++ p.constants.toList.flatMap constantCells
    ++ numberCells 4 p.captures.size ++ p.captures.toList.flatMap captureCells

mutual

def prototypeCells : Prototype → List Cell
  | .mk name source line params isVararg window code positions constants captures children =>
    ownCells (.mk name source line params isVararg window code positions constants captures children)
      ++ numberCells 4 children.length ++ prototypesCells children

def prototypesCells : List Prototype → List Cell
  | [] => []
  | child :: rest => prototypeCells child ++ prototypesCells rest

end

theorem prototypesCells_eq (ps : List Prototype) : prototypesCells ps = ps.flatMap prototypeCells := by
  induction ps with
  | nil => rw [prototypesCells, List.flatMap_nil]
  | cons p ps ih => rw [prototypesCells, ih, List.flatMap_cons]

theorem prototypeCells_eq (p : Prototype) : prototypeCells p =
    ownCells p ++ numberCells 4 p.children.length ++ p.children.flatMap prototypeCells := by
  cases p
  rw [prototypeCells, prototypesCells_eq]

/-- The trees that are read, given how many levels are. -/
def Loadable (levels : Nat) (p : Prototype) : Prop :=
  p.Everywhere Prototype.Writable ∧ p.Everywhere Prototype.TextsFit ∧ p.NestedWithin levels

theorem loadable_succ_iff {levels : Nat} {p : Prototype} :
    Loadable (levels + 1) p ↔
      p.Writable ∧ p.TextsFit ∧ ∀ c ∈ p.children, Loadable levels c := by
  simp only [Loadable, Prototype.everywhere_iff (p := p), Prototype.NestedWithin, forall_and]
  tauto

instance decidableLoadable : ∀ levels p, Decidable (Loadable levels p)
  | 0, _ => isFalse fun h => h.2.2
  | levels + 1, p =>
    have := decidableLoadable levels
    decidable_of_iff _ (loadable_succ_iff (p := p)).symm

theorem length_flatMap_wordCells (ws : List Word) : (ws.flatMap wordCells).length = ws.length * 4 := by
  simp [List.length_flatMap, wordCells, numberCells]

theorem length_flatMap_positionCells (ps : List Position) :
    (ps.flatMap positionCells).length = ps.length * 8 := by
  simp [List.length_flatMap, positionCells, numberCells]

theorem parses_prototype (levels : Nat) :
    Parses (readPrototype levels) (Loadable levels) prototypeCells := by
  induction levels with
  | zero => simp [Parses, readPrototype, Loadable, Prototype.NestedWithin]
  | succ levels ih =>
    intro bytes p rest
    rw [readPrototype]
    refine Iff.trans (parses_text.seq p.name (fun _ : True => .rfl) fun name _ _ =>
      parses_text.seq p.source (fun _ => .rfl) fun source _ _ =>
      (parses_number 4).seq p.line.toNat (fun _ => .rfl) fun line smallLine _ =>
      parses_byte.seq p.params (fun _ => .rfl) fun params _ _ =>
      parses_flag.seq p.isVararg (fun _ => .rfl) fun isVararg _ _ =>
      (parses_number 2).seq p.window.toNat (fun _ => .rfl) fun window smallWindow _ =>
      (parses_number 4).seq p.code.size (fun _ => .rfl) fun words _ _ => check_seq ?enough <|
      (parses_many parses_word _).seq p.code.toList (fun h => by rw [h.1]) fun code _ _ =>
      (parses_many parses_position _).seq p.positions.toList (fun h => by rw [h.2.1]) fun positions _ _ =>
      (parses_number 4).seq p.constants.size (fun _ => .rfl) fun constantCount _ _ =>
      (parses_many (parses_namedConstant _) _).seq p.constants.toList (fun h => by rw [h.1]) fun constants _ _ =>
      (parses_number 4).seq p.captures.size (fun _ => .rfl) fun captureCount _ _ =>
      (parses_many parses_capture _).seq p.captures.toList (fun h => by rw [h.1]) fun captures _ _ =>
      (parses_number 4).seq p.children.length (fun _ => .rfl) fun childCount _ _ =>
      (parses_many ih _).seq p.children (fun h => by rw [h.1]) fun children _ _ => pure_seq ?whole) ?_
    case enough =>
      -- the words and positions that follow are what the check of the length asks for
      rintro ⟨rfl, -⟩ ⟨⟨-, -⟩, ⟨parallel, -⟩, -⟩ spells
      have length := spells.length
      simp only [List.length_append, length_flatMap_wordCells, length_flatMap_positionCells, parallel,
        Array.length_toList] at length
      omega
    case whole =>
      constructor
      · rintro rfl
        simp [*, UInt32.toNat_ofNat_of_lt' smallLine, UInt16.toNat_ofNat_of_lt' smallWindow]
      · rintro ⟨rfl, -, rfl, -, rfl, -, rfl, rfl, -, rfl, rfl, rfl, rfl, rfl, rfl, -⟩
        cases p
        simp
    · have line : p.line.toNat < 2 ^ 32 := p.line.toNat_lt
      have window : p.window.toNat < 256 ^ 2 := p.window.toNat_lt
      have wide : 256 ^ 4 = 2 ^ 32 := rfl
      rw [loadable_succ_iff, Prototype.writable_iff, Prototype.textsFit_iff, prototypeCells_eq, ownCells]
      simp only [line, window, wide, List.append_assoc, List.append_nil, Array.length_toList, forall_and,
        implies_true, true_and, and_true]
      tauto

end Chunk
end RegisterMachine
