import CoinScript.Fault

/-! # Open conditionals

One entry for each conditional that is open, innermost first: whether its current branch
is taken. Instructions execute while every entry is true.
-/
namespace CoinScript

abbrev Branches := List Bool

namespace Branches

def allTaken (bs : Branches) : Bool := bs.all id

def enter (bs : Branches) (taken : Bool) : Branches := taken :: bs

/-- Closes the innermost conditional. -/
def leave : Branches → Except Fault (Bool × Branches)
  | [] => .error .strayEndIf
  | taken :: bs => .ok (taken, bs)

/-- Switches to the other branch of the innermost conditional. -/
def toggle : Branches → Except Fault Branches
  | [] => .error .strayElse
  | taken :: bs => .ok ((!taken) :: bs)

end Branches

end CoinScript
