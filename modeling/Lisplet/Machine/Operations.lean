import Lisplet.Primitive.Call

/-!
# Operation Tables

The operations a program may name. A table holds operations of some kind `ω`, which
is primitives where nothing else is said. The host of a machine may add functions
of its own, so an operation can be anything that is called with a list of arguments
and a heap. Its name need not be the one it goes by elsewhere.
-/

namespace Lisplet

/-- Operations that are called with a list of arguments. -/
class Callable (ω : Type) where
  call : ω → Value → HeapM Fatal Value

/-- A function of the host, which may do anything to the heap. -/
abbrev HostFunction := Value → HeapM Fatal Value

instance : Callable HostFunction := ⟨id⟩

instance : Callable Primitive := ⟨Primitive.call⟩

/-- Operations by name; every name occurs once. -/
structure Operations (ω : Type := Primitive) where
  entries : List (String × ω)

namespace Operations

variable {ω : Type}

def empty : Operations ω := ⟨[]⟩

def get? (ops : Operations ω) (name : String) : Option ω := ops.entries.lookup name

/-- Adds an operation, in place of one of the same name. -/
def insert (ops : Operations ω) (name : String) (op : ω) : Operations ω :=
  ⟨(name, op) :: ops.entries.filter fun entry => entry.1 != name⟩

/-- Adds primitives under their own names. -/
def insertAll (ops : Operations) (primitives : List Primitive) : Operations :=
  primitives.foldl (fun ops p => ops.insert p.name p) ops

def size (ops : Operations ω) : Nat := ops.entries.length

def isEmpty (ops : Operations ω) : Bool := ops.entries.isEmpty

/-- All primitives under their own names. -/
def standard : Operations := (empty.insertAll Primitive.standard).insertAll Primitive.machine

end Operations

end Lisplet
