import FormulaMachine.Program

/-!
Fragments, the pieces that programs are put together from.
-/
namespace FormulaMachine

/-- Instructions, and the constants that their numbers load. -/
structure Fragment where
  code : List Opcode := []
  constants : List Float := []
deriving DecidableEq

namespace Fragment

def empty : Fragment := {}

def size (f : Fragment) : Nat := f.code.length

def push (f : Fragment) (op : Opcode) : Fragment := { f with code := f.code ++ [op] }

def pushNumber (f : Fragment) (x : Float) : Fragment :=
  { code := f.code ++ [.number], constants := f.constants ++ [x] }

def append (f g : Fragment) : Fragment :=
  { code := f.code ++ g.code, constants := f.constants ++ g.constants }

instance : Append Fragment := ⟨append⟩

/-- A choice by the value that `f` leaves. The branch skips `yes` and the jump behind it, and the
jump skips `no`. -/
def pushChoice (f yes no : Fragment) : Fragment :=
  let f := f.push (.branch (yes.size + 1)) ++ yes
  (f.push (.jump no.size) ++ no).push .endIf

def toProgram? (f : Fragment) : Except Error Program :=
  Program.ofCode? f.code f.constants

end Fragment
end FormulaMachine
