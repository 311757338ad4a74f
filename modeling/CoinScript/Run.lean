import CoinScript.Context
import CoinScript.Fault
import CoinScript.Text

/-! # Runs

A run ends in a value or a fault, and on the way it leaves a list of events: each step
it takes, each signature it has checked, and notes on how a spend is judged. Events are
kept in the order in which they happen, those before a fault included, and never
influence the result.
-/
namespace CoinScript

inductive Note where
  | anyoneCanSpend (version : Nat)
  | scriptHashProgram
  | keyHashProgram
  | refused (fault : Fault) (scriptPubkey : Script)

inductive Event where
  /-- An instruction of `script` is looked at, on a stack of `depth` items. -/
  | step (script : Script) (located : Located) (executing : Bool) (depth : Nat)
  | check (sig key : Bytes) (code : Script) (version : SigVersion)
  | note (note : Note)

namespace Event

/-- Where an instruction starts: what comes before it and after it make up the rest of
the script. -/
def offset (script : Script) (located : Located) : Nat :=
  script.length - located.rest.length - located.instruction.size

/-- The log line of an event. -/
def line? : Event → Option String
  | .step script located executing depth =>
    let start := Text.padLeft 5 (toString (offset script located))
    let name := Text.padRight 22 located.instruction.name
    some s!"TRACE {start} {name} exec={executing} depth={depth}"
  | .check .. => none
  | .note (.anyoneCanSpend version) =>
    some s!"DEBUG witness program version {version} treated as anyone-can-spend"
  | .note .scriptHashProgram => some "DEBUG executing v0 script-hash witness program"
  | .note .keyHashProgram => some "DEBUG executing v0 key-hash witness program"
  | .note (.refused fault scriptPubkey) =>
    some s!"DEBUG script verification failed: {fault.report} (script_pubkey {Hex.encode scriptPubkey})"

/-- The digest that the check of a signature asks for. -/
def digestCall? : Event → Option (Script × UInt8 × SigVersion)
  | .check sig key code version =>
    (SignatureQuery.of? sig key).map fun query => (code, query.hashType, version)
  | _ => none

end Event

structure Run (α : Type) where
  events : List Event
  result : Except Fault α

namespace Run

variable {α β : Type}

def ok (a : α) : Run α := ⟨[], .ok a⟩

def fail (fault : Fault) : Run α := ⟨[], .error fault⟩

def emit (event : Event) : Run Unit := ⟨[event], .ok ()⟩

def ofExcept (result : Except Fault α) : Run α := ⟨[], result⟩

def andThen (run : Run α) (next : α → Run β) : Run β :=
  match run.result with
  | .ok a =>
    let rest := next a
    ⟨run.events ++ rest.events, rest.result⟩
  | .error fault => ⟨run.events, .error fault⟩

instance : Monad Run where
  pure := ok
  bind := andThen

theorem pure_eq (a : α) : (pure a : Run α) = ok a := rfl

theorem bind_eq (run : Run α) (next : α → Run β) : run >>= next = andThen run next := rfl

theorem map_id' (run : Run α) : id <$> run = run := by
  obtain ⟨events, result⟩ := run
  cases result <;> simp [Functor.map, andThen, ok]

theorem ok_bind (a : α) (next : α → Run β) : pure a >>= next = next a := by
  simp [pure_eq, bind_eq, andThen, ok]

theorem andThen_assoc {γ : Type} (run : Run α) (f : α → Run β) (g : β → Run γ) :
    run >>= f >>= g = run >>= fun a => f a >>= g := by
  obtain ⟨events, result⟩ := run
  cases result with
  | error => simp [bind_eq, andThen]
  | ok a => cases h : (f a).result <;> simp [bind_eq, andThen, h, List.append_assoc]

instance : LawfulMonad Run := LawfulMonad.mk' Run map_id' ok_bind andThen_assoc

@[simp] theorem result_pure (a : α) : (pure a : Run α).result = .ok a := rfl

@[simp] theorem result_fail (fault : Fault) : (fail fault : Run α).result = .error fault := rfl

@[simp] theorem result_ofExcept (result : Except Fault α) : (ofExcept result).result = result := rfl

theorem result_bind (run : Run α) (next : α → Run β) :
    (run >>= next).result = run.result >>= fun a => (next a).result := by
  show (andThen run next).result = _
  unfold andThen
  cases h : run.result <;> rfl

/-- What follows a run adds its events only if the run ends in a value. -/
theorem events_bind (run : Run α) (next : α → Run β) :
    (run >>= next).events =
      run.events ++ match run.result with
        | .ok a => (next a).events
        | .error _ => [] := by
  rw [bind_eq]
  unfold andThen
  cases h : run.result <;> simp

/-- The log of a run. -/
def log (run : Run α) : List String := run.events.filterMap Event.line?

/-- The digests that the signature checks of a run ask for. -/
def digestCalls (run : Run α) : List (Script × UInt8 × SigVersion) :=
  run.events.filterMap Event.digestCall?

end Run

end CoinScript
