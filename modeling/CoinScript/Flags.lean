import CoinScript.ParseFault
import CoinScript.Text

/-! # Verification rules

A rule tightens what a spend may do. A set of rules is a mask of 32 bits, of which the
named rules use the lowest seventeen; other bits are carried along and mean nothing.
-/
namespace CoinScript

inductive Rule where
  | p2sh
  | strictEnc
  | derSig
  | lowS
  | nullDummy
  | sigPushOnly
  | minimalData
  | discourageUpgradableNops
  | cleanStack
  | checkLockTimeVerify
  | checkSequenceVerify
  | witness
  | discourageUpgradableWitnessProgram
  | minimalIf
  | nullFail
  | witnessPubkeyType
  | constScriptCode
deriving DecidableEq, Repr

structure Flags where
  bits : UInt32
deriving DecidableEq, Repr

namespace Rule

/-- Every rule, in bit order. -/
def all : List Rule :=
  [p2sh, strictEnc, derSig, lowS, nullDummy, sigPushOnly, minimalData, discourageUpgradableNops,
    cleanStack, checkLockTimeVerify, checkSequenceVerify, witness,
    discourageUpgradableWitnessProgram, minimalIf, nullFail, witnessPubkeyType, constScriptCode]

def mask : Rule → UInt32
  | p2sh => 0x1
  | strictEnc => 0x2
  | derSig => 0x4
  | lowS => 0x8
  | nullDummy => 0x10
  | sigPushOnly => 0x20
  | minimalData => 0x40
  | discourageUpgradableNops => 0x80
  | cleanStack => 0x100
  | checkLockTimeVerify => 0x200
  | checkSequenceVerify => 0x400
  | witness => 0x800
  | discourageUpgradableWitnessProgram => 0x1000
  | minimalIf => 0x2000
  | nullFail => 0x4000
  | witnessPubkeyType => 0x8000
  | constScriptCode => 0x10000

def name : Rule → String
  | p2sh => "P2SH"
  | strictEnc => "STRICTENC"
  | derSig => "DERSIG"
  | lowS => "LOW_S"
  | nullDummy => "NULLDUMMY"
  | sigPushOnly => "SIGPUSHONLY"
  | minimalData => "MINIMALDATA"
  | discourageUpgradableNops => "DISCOURAGE_UPGRADABLE_NOPS"
  | cleanStack => "CLEANSTACK"
  | checkLockTimeVerify => "CHECKLOCKTIMEVERIFY"
  | checkSequenceVerify => "CHECKSEQUENCEVERIFY"
  | witness => "WITNESS"
  | discourageUpgradableWitnessProgram => "DISCOURAGE_UPGRADABLE_WITNESS_PROGRAM"
  | minimalIf => "MINIMALIF"
  | nullFail => "NULLFAIL"
  | witnessPubkeyType => "WITNESS_PUBKEYTYPE"
  | constScriptCode => "CONST_SCRIPTCODE"

def flags (rule : Rule) : Flags := ⟨rule.mask⟩

end Rule

namespace Flags

def empty : Flags := ⟨0⟩

def union (f g : Flags) : Flags := ⟨f.bits ||| g.bits⟩

def inter (f g : Flags) : Flags := ⟨f.bits &&& g.bits⟩

instance : Union Flags := ⟨union⟩
instance : Inter Flags := ⟨inter⟩

/-- Whether every bit of `g` is set in `f`. -/
def includes (f g : Flags) : Bool := f.bits &&& g.bits == g.bits

def has (f : Flags) (rule : Rule) : Bool := f.includes rule.flags

def includesAny (f : Flags) (gs : List Flags) : Bool := gs.any f.includes

def ofRules (rules : List Rule) : Flags :=
  rules.foldl (fun f rule => f ∪ rule.flags) empty

/-- The rules that every block must satisfy. -/
def mandatory : Flags := Rule.p2sh.flags

/-- The rules that relaying demands: all but the one on push-only signature scripts. -/
def standard : Flags := ofRules (Rule.all.filter (· ≠ .sigPushOnly))

/-- The rules of a set, in bit order. -/
def rules (f : Flags) : List Rule := Rule.all.filter f.has

def names (f : Flags) : List String := f.rules.map Rule.name

/-- One rule by its name, which may carry a leading `VERIFY_`; `NONE` is the empty set. -/
def ofName (name : List Char) : Except ParseFault Flags :=
  let bare := if "VERIFY_".toList.isPrefixOf name then name.drop 7 else name
  if bare = "NONE".toList then .ok empty
  else match Rule.all.find? (fun rule => rule.name.toList = bare) with
    | some rule => .ok rule.flags
    | none => .error (.unknownRule (String.ofList name))

/-- The union of the named rules of a comma-separated list; empty entries do not count. -/
def ofNames (text : List Char) : Except ParseFault Flags :=
  (Text.entries text).foldlM (fun f name => return f ∪ (← ofName name)) empty

/-- The names separated by commas, or `NONE` for the empty mask. -/
def text (f : Flags) : String :=
  if f.bits = 0 then "NONE" else ",".intercalate f.names

end Flags

end CoinScript
