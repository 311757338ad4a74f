import CoinScript.Proofs.Removal
import CoinScript.Proofs.Trace

/-! # The script code of signature checks

A signature is checked against the instructions that follow the last code separator executed
before it. Outside of witnesses, the pushes of the signatures at hand are removed from them
first; where script code has to be constant, this leaves the whole script.
-/
namespace CoinScript

def Event.separator? : Event → Option Located
  | .step _ here true _ => if here.opcode = Opcode.codeSeparator then some here else none
  | _ => none

namespace Script

/-- The instructions after the last code separator among the events; without one, all. -/
def signedPart (s : Script) (events : List Event) : List Instruction :=
  match (events.filterMap Event.separator?).getLast? with
  | some here => ((s.located.dropWhile (· ≠ here)).drop 1).map (·.instruction)
  | none => s.instructions

variable {s : Script} {here : Located} {front back : List Located} {events later : List Event}

end Script

open Script

namespace Machine

variable {env : Env} {m m' : Machine} {here : Located} {sigs keys : List Bytes} {code : Script}
  {stack : Stack} {front back : List Located}

section Separators

/-- The script code of a machine starts at an instruction: it is what the separators executed so
far leave of the script. -/
structure CodeAt (env : Env) (m : Machine) (events : List Event) (before after : List Located) :
    Prop where
  split : env.script.located = before ++ after
  code : m.code = ofInstructions (after.map (·.instruction))
  signed : env.script.signedPart events = after.map (·.instruction)

end Separators

section Signed

variable {events checks : List Event} {before after : List Located}

theorem CodeAt.sequence (h : CodeAt env m events before after) :
    Sequence (env.script.signedPart events) := by
  have hscript := (sequence_instructions env.script).1
  rw [instructions, h.split, List.map_append] at hscript
  rw [h.signed]
  exact hscript.of_append

end Signed

end Machine

end CoinScript
