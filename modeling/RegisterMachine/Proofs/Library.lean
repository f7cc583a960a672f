import RegisterMachine.Proofs.Contracts

/-! The functions of the library. All are plain but those that keep faults, and those that pass control on
themselves. -/
namespace RegisterMachine

def FailsBare {α : Type} (r : Except Fault α) : Prop := ∀ f, r = .error f → f.isBare = true

theorem failsBare_ok {α : Type} (a : α) : FailsBare (.ok a) := fun _ h => nomatch h

theorem failsBare_error {α : Type} {f : Fault} (h : f.isBare = true) :
    FailsBare (.error f : Except Fault α) := by
  rintro _ ⟨⟩
  exact h

namespace Arguments

theorem failsBare_table (args : List Value) (n : Nat) (function : String) :
    FailsBare (table args n function) := by
  unfold table
  split
  · exact failsBare_ok _
  · exact failsBare_error rfl

theorem failsBare_function (args : List Value) (n : Nat) (name : String) :
    FailsBare (function args n name) := by
  unfold function
  split
  · exact failsBare_ok _
  · exact failsBare_error rfl

theorem failsBare_coroutine (args : List Value) (n : Nat) (function : String) :
    FailsBare (coroutine args n function) := by
  unfold coroutine
  split
  · exact failsBare_ok _
  · exact failsBare_error rfl

theorem failsBare_integer (args : List Value) (n : Nat) (function : String) :
    FailsBare (integer args n function) := by
  unfold integer
  split
  · exact failsBare_error rfl
  · split
    · exact failsBare_ok _
    · exact failsBare_error rfl

theorem failsBare_integerOr (args : List Value) (n : Nat) (function : String) (default : Int64) :
    FailsBare (integerOr args n function default) := by
  unfold integerOr
  split
  · exact failsBare_ok _
  · exact failsBare_integer args n function

theorem failsBare_metatable (args : List Value) (function : String) :
    FailsBare (metatable args function) := by
  unfold metatable
  split
  · exact failsBare_ok _
  · exact failsBare_ok _
  · exact failsBare_error rfl

end Arguments

namespace Script

theorem plain_check {α : Type} {r : Except Fault α} (hr : FailsBare r) : (check r).Plain := by
  cases r with
  | ok a => trivial
  | error f => exact hr f rfl

theorem plain_text (v : Value) : (text v).Plain := by
  refine (plain_read _).bind fun handler => ?_
  split
  · split
    · trivial
    · refine (plain_read _).bind fun name => ?_
      split
      · trivial
      · exact plain_read _
  · refine (plain_callOne _ _).bind fun v => ?_
    split
    · trivial
    · exact rfl

end Script

namespace Library

open Script Arguments

theorem plain_assert (args : List Value) : (assert args).Plain := by
  unfold assert
  split
  · trivial
  · split
    · exact rfl
    · exact rfl

theorem plain_error (args : List Value) : (error args).Plain := by
  refine (plain_check (failsBare_integerOr _ _ _ _)).bind fun level => ?_
  split
  · refine (plain_read _).bind fun location => ?_
    split
    · exact rfl
    · exact rfl
  · exact rfl

theorem plain_tonumber (args : List Value) : (tonumber args).Plain := by
  unfold tonumber
  dsimp only
  split
  · trivial
  · refine (plain_check (failsBare_integer _ _ _)).bind fun base => ?_
    split
    · exact rfl
    · split
      · trivial
      · exact rfl

theorem plain_rawset (args : List Value) : (rawset args).Plain := by
  refine (plain_check (failsBare_table _ _ _)).bind fun r => ?_
  exact (plain_rawSet _ _ _).bind fun _ => trivial

theorem plain_rawlen (args : List Value) : (rawlen args).Plain := by
  unfold rawlen
  split
  · exact plain_read _
  · trivial
  · exact rfl

theorem plain_setmetatable (args : List Value) : (setmetatable args).Plain := by
  refine (plain_check (failsBare_table _ _ _)).bind fun r =>
    (plain_check (failsBare_metatable _ _)).bind fun metatable => ?_
  refine (plain_read _).bind fun guard => ?_
  split
  · exact rfl
  · exact (plain_perform _).bind fun _ => trivial

theorem plain_next (args : List Value) : (next args).Plain := by
  refine (plain_check (failsBare_table _ _ _)).bind fun r => (plain_read _).bind fun found => ?_
  split
  · rename_i f
    cases f <;> exact rfl
  · trivial
  · trivial

theorem plain_pairs (args : List Value) : (pairs args).Plain := by
  refine (plain_read _).bind fun handler => ?_
  split
  · exact (plain_check (failsBare_table _ _ _)).bind fun r => (plain_make _).bind fun _ => trivial
  · exact (plain_call _ _).bind fun _ => trivial

theorem plain_ipairsStep (args : List Value) : (ipairsStep args).Plain := by
  refine (plain_check (failsBare_integer _ _ _)).bind fun i =>
    (plain_index _ _).bind fun v => ?_
  split <;> trivial

theorem plain_select (args : List Value) : (select args).Plain := by
  unfold select
  split
  · trivial
  · refine (plain_check (failsBare_integer _ _ _)).bind fun n => ?_
    dsimp only
    split
    · exact rfl
    · split <;> trivial

theorem plain_texts (vs : List Value) : (texts vs).Plain := by
  induction vs with
  | nil => trivial
  | cons v vs ih => exact (plain_text v).bind fun s => ih.bind fun _ => trivial

theorem plain_print (args : List Value) : (print args).Plain := by
  refine (plain_texts args).bind fun ss => (plain_read _).bind fun closed => ?_
  split
  · exact rfl
  · exact (plain_perform _).bind fun _ => trivial

theorem plain_coWrap (args : List Value) : (coWrap args).Plain := by
  refine (plain_check (failsBare_function _ _ _)).bind fun entry => (plain_make _).bind fun v => ?_
  split
  · exact (plain_make _).bind fun _ => trivial
  · trivial

theorem plain_debugTraceback (args : List Value) : (debugTraceback args).Plain := by
  unfold debugTraceback
  dsimp only
  split
  · exact (plain_check (failsBare_integerOr _ _ _ _)).bind fun _ => plain_read _
  · exact (plain_check (failsBare_integerOr _ _ _ _)).bind fun _ => plain_read _
  · trivial

theorem plain_debugSetMetatable (args : List Value) : (debugSetMetatable args).Plain := by
  refine (plain_check (failsBare_metatable _ _)).bind fun metatable => ?_
  dsimp only
  split
  · exact (plain_perform _).bind fun _ => trivial
  · exact (plain_perform _).bind fun _ => trivial
  · exact (plain_perform _).bind fun _ => trivial
  · exact rfl

end Library

/-- Whether a function neither keeps faults nor passes control on itself. -/
def Builtin.isPlain : Builtin → Bool
  | .pcall | .xpcall | .coResume | .coClose | .coYield | .debugBreak | .exit => false
  | _ => true

open Script Arguments in
theorem Builtin.plain_script {b : Builtin} (h : b.isPlain = true) (args : List Value) :
    (b.script args).Plain := by
  cases b
  case assert => exact Library.plain_assert args
  case error => exact Library.plain_error args
  case type => exact trivial
  case tostring => exact (plain_text _).bind fun _ => trivial
  case tonumber => exact Library.plain_tonumber args
  case rawget => exact (plain_check (failsBare_table _ _ _)).bind fun _ => plain_read _
  case rawset => exact Library.plain_rawset args
  case rawequal => exact trivial
  case rawlen => exact Library.plain_rawlen args
  case setmetatable => exact Library.plain_setmetatable args
  case getmetatable => exact plain_read _
  case next => exact Library.plain_next args
  case pairs => exact Library.plain_pairs args
  case ipairs => exact (plain_make _).bind fun _ => trivial
  case select => exact Library.plain_select args
  case print => exact Library.plain_print args
  case coCreate =>
    exact (plain_check (failsBare_function _ _ _)).bind fun _ => (plain_make _).bind fun _ => trivial
  case coStatus => exact (plain_check (failsBare_coroutine _ _ _)).bind fun _ => plain_read _
  case coWrap => exact Library.plain_coWrap args
  case coIsYieldable => exact plain_read _
  case coRunning => exact plain_read _
  case debugTraceback => exact Library.plain_debugTraceback args
  case debugGetMetatable => exact plain_read _
  case debugSetMetatable => exact Library.plain_debugSetMetatable args
  all_goals cases h

end RegisterMachine
