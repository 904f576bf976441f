/-!
# Fresh names

A name that is taken is numbered from two on until a free one is found. As many
attempts as there are taken names leave a free one in any case.
-/

namespace RequestShapes.Schema

/-- The attempts at a name: the name alone, then the name followed by two,
three and so on. -/
def numbered (name : String) (attempt : Nat) : String :=
  if attempt ≤ 1 then name else name ++ toString attempt

/-- The first attempt that is accepted. When the fuel is gone the next attempt
is the answer. -/
def firstNumbered (accepts : String → Bool) (name : String) : Nat → Nat → String
  | 0, attempt => numbered name attempt
  | fuel + 1, attempt =>
      if accepts (numbered name attempt) then numbered name attempt
      else firstNumbered accepts name fuel (attempt + 1)

/-- The first attempt at a name that is not taken. -/
def freshName (taken : List String) (name : String) : String :=
  firstNumbered (fun candidate => !taken.contains candidate) name taken.length 1

end RequestShapes.Schema
