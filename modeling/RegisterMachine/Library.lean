import RegisterMachine.Library.Base
import RegisterMachine.Library.Coroutines
import RegisterMachine.Library.Debugging

/-! What each native function does. -/
namespace RegisterMachine

def Builtin.script : Builtin → List Value → Script (List Value)
  | .assert, args => Library.assert args
  | .error, args => Library.error args
  | .pcall, args => Library.pcall args
  | .xpcall, args => Library.xpcall args
  | .type, args => Library.type args
  | .tostring, args => Library.tostring args
  | .tonumber, args => Library.tonumber args
  | .rawget, args => Library.rawget args
  | .rawset, args => Library.rawset args
  | .rawequal, args => Library.rawequal args
  | .rawlen, args => Library.rawlen args
  | .setmetatable, args => Library.setmetatable args
  | .getmetatable, args => Library.getmetatable args
  | .next, args => Library.next args
  | .pairs, args => Library.pairs args
  | .ipairs, args => Library.ipairs args
  | .select, args => Library.select args
  | .print, args => Library.print args
  | .coCreate, args => Library.coCreate args
  | .coResume, args => Library.coResume args
  | .coYield, args => Library.coYield args
  | .coStatus, args => Library.coStatus args
  | .coClose, args => Library.coClose args
  | .coWrap, args => Library.coWrap args
  | .coIsYieldable, _ => Library.coIsYieldable
  | .coRunning, _ => Library.coRunning
  | .debugBreak, _ => Library.debugBreak
  | .debugTraceback, args => Library.debugTraceback args
  | .debugGetMetatable, args => Library.debugGetMetatable args
  | .debugSetMetatable, args => Library.debugSetMetatable args
  | .exit, args => Library.exit args

def Routine.script (host : Host) : Routine → List Value → Script (List Value)
  | .builtin b, args => b.script args
  | .ipairsStep, args => Library.ipairsStep args
  | .wrapped co, args => Library.wrapped co args
  | .host name, args => host name args

/-- A native function on arguments: those that it cannot do without are checked first. -/
def Native.script (host : Host) (n : Native) (args : List Value) : Script (List Value) :=
  if args.length < n.minArgs then
    .fail (Arguments.bad (args.length + 1) (Native.shortNameOf n.name) "value expected")
  else n.routine.script host args

end RegisterMachine
