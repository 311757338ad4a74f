/-! # Limits of an execution

Six sizes bound an execution, and a policy says when a disabled opcode is a failure.
Limits are stored as named settings, any of which may be missing, or as the bare values
in the order of the fields.
-/
namespace CoinScript

/-- When a disabled opcode fails the script: wherever it stands, or only if it is reached. -/
inductive DisabledPolicy where
  | always
  | executedOnly
deriving DecidableEq, Repr

def DisabledPolicy.name : DisabledPolicy → String
  | always => "always"
  | executedOnly => "executed_only"

def DisabledPolicy.ofName? (name : String) : Option DisabledPolicy :=
  [always, executedOnly].find? (·.name = name)

structure Limits where
  maxOps : Nat := 201
  maxStackSize : Nat := 1000
  maxScriptSize : Nat := 10000
  maxElementSize : Nat := 520
  maxNumSize : Nat := 4
  maxKeysPerMultisig : Nat := 20
  disabledPolicy : DisabledPolicy := .always
deriving DecidableEq, Repr

namespace Limits

instance : Inhabited Limits := ⟨{}⟩

/-- Operands of the lock-time opcodes may be one byte longer than the default number. -/
def lockTimeNumSize : Nat := 5

/-- A stored value of one field. -/
inductive Setting where
  | count (n : Nat)
  | word (name : String)
  | other
deriving DecidableEq, Repr

inductive Field where
  | maxOps
  | maxStackSize
  | maxScriptSize
  | maxElementSize
  | maxNumSize
  | maxKeysPerMultisig
  | disabledPolicy
deriving DecidableEq, Repr

/-- The fields in the order in which bare values are stored. -/
def Field.all : List Field :=
  [maxOps, maxStackSize, maxScriptSize, maxElementSize, maxNumSize, maxKeysPerMultisig,
    disabledPolicy]

def Field.name : Field → String
  | maxOps => "max_ops"
  | maxStackSize => "max_stack_size"
  | maxScriptSize => "max_script_size"
  | maxElementSize => "max_element_size"
  | maxNumSize => "max_num_size"
  | maxKeysPerMultisig => "max_pubkeys_per_multisig"
  | disabledPolicy => "disabled_opcode_policy"

def get (limits : Limits) : Field → Setting
  | .maxOps => .count limits.maxOps
  | .maxStackSize => .count limits.maxStackSize
  | .maxScriptSize => .count limits.maxScriptSize
  | .maxElementSize => .count limits.maxElementSize
  | .maxNumSize => .count limits.maxNumSize
  | .maxKeysPerMultisig => .count limits.maxKeysPerMultisig
  | .disabledPolicy => .word limits.disabledPolicy.name

/-- Counts fit 64 bits. -/
def maxCount : Nat := 0xffffffffffffffff

/-- Counts are bounded; the policy is given by name. -/
def set? (limits : Limits) (field : Field) (setting : Setting) : Option Limits :=
  match field, setting with
  | .disabledPolicy, .word name =>
    (DisabledPolicy.ofName? name).map fun policy => { limits with disabledPolicy := policy }
  | .disabledPolicy, _ => none
  | field, .count n =>
    if maxCount < n then none
    else match field with
      | .maxOps => some { limits with maxOps := n }
      | .maxStackSize => some { limits with maxStackSize := n }
      | .maxScriptSize => some { limits with maxScriptSize := n }
      | .maxElementSize => some { limits with maxElementSize := n }
      | .maxNumSize => some { limits with maxNumSize := n }
      | .maxKeysPerMultisig => some { limits with maxKeysPerMultisig := n }
      | .disabledPolicy => none
  | _, _ => none

/-- Limits from named settings: fields not named keep the default, names of no field are
skipped. -/
def ofNamed (settings : List (String × Setting)) : Option Limits :=
  settings.foldlM (fun limits (name, setting) =>
    match Field.all.find? (·.name = name) with
    | some field => limits.set? field setting
    | none => some limits) {}

/-- Limits from bare values in field order: fields past the last value keep the default. -/
def ofValues (settings : List Setting) : Option Limits :=
  if Field.all.length < settings.length then none
  else (Field.all.zip settings).foldlM (fun limits (field, setting) => limits.set? field setting) {}

def named (limits : Limits) : List (String × Setting) :=
  Field.all.map fun field => (field.name, limits.get field)

end Limits

end CoinScript
