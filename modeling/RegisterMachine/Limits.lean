/-! The limits a machine is set up with. -/
namespace RegisterMachine

structure Limits where
  /-- The slots each arena starts with. -/
  initialSlots : Nat := 256
  /-- The slots an arena may grow to. -/
  maxSlots : Nat := 1000000
  /-- The frames a fiber may hold. -/
  maxCallDepth : Nat := 10000
  /-- How deep calls from the host may nest. -/
  maxNativeDepth : Nat := 200
  deriving DecidableEq, Repr, Inhabited

end RegisterMachine
