import BareBones.Position

/-!
The names a program has declared so far. There is one flat scope: a name is
visible from its declaration to the end of the program, whatever blocks lie
between.
-/

namespace BareBones

/-- Declared names, newest first. -/
structure Scope where
  declared : List String := []

inductive NameError where
  | undefined (name : String)
  | undefinedTarget (name : String)
  | redefinition (name : String)
deriving DecidableEq

def NameError.message : NameError → String
  | undefined x => "Symbol `" ++ x ++ "` is undefined, declare it first with `let`"
  | undefinedTarget x => "Cannot assign to `" ++ x ++ "` before it is declared"
  | redefinition x => "Redefinition of `" ++ x ++ "`, names may only be declared once"

namespace Scope

def empty : Scope := {}

def contains (s : Scope) (x : String) : Bool := s.declared.contains x

/-- Names in the order of their declarations. -/
def names (s : Scope) : List String := s.declared.reverse

theorem contains_iff (s : Scope) (x : String) : s.contains x = true ↔ x ∈ s.names := by
  simp [contains, names]

/-- Adds a name that is not there yet. -/
def declare (s : Scope) (x : Located String) : Except (Located NameError) Scope :=
  if s.contains x.val then .error ⟨.redefinition x.val, x.span⟩
  else .ok ⟨x.val :: s.declared⟩

/-- Refuses a name that is used before its declaration. -/
def lookup (s : Scope) (x : Located String) : Except (Located NameError) Unit :=
  if s.contains x.val then .ok () else .error ⟨.undefined x.val, x.span⟩

/-- Refuses a name that is given a value before its declaration. -/
def lookupTarget (s : Scope) (x : Located String) : Except (Located NameError) Unit :=
  if s.contains x.val then .ok () else .error ⟨.undefinedTarget x.val, x.span⟩

end Scope

end BareBones
