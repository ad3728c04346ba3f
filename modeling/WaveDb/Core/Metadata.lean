import WaveDb.Core.Store

-- The header every stored record carries: its version chain, who wrote it and
-- who may see it.
namespace WaveDb.Core

-- A live version has its own instant; an archived one names its successor's.
inductive Succession
  | createdAt (instant : Nat)
  | next (instant : Nat)
  deriving DecidableEq, Repr

inductive PermissionRef
  | anyone
  | tenants (tenants : List Nat)
  | group (group : Nat)
  deriving DecidableEq, Repr

structure Metadata where
  previous : Option Nat := none
  succession : Succession := .createdAt 0
  removed : Bool := false
  pivotId : Option LocalId := none
  user : Nat := 0
  deviceCreated : Nat := 0
  permission : Option PermissionRef := none
  deriving DecidableEq, Repr

def Metadata.isLive (m : Metadata) : Bool := !m.removed

end WaveDb.Core
