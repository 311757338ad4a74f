import CoinScript.Proofs.Multisig
import CoinScript.Proofs.Step

/-! # Signature operations

A signature operation finds its signatures and keys on the stack, removes the signatures from
the script code, has them checked against that code, and settles the verdict. It checks no
more signatures than it has keys, and each of them against the same code.
-/
namespace CoinScript

namespace Run

variable {α β : Type}

@[simp] theorem events_pure (a : α) : (pure a : Run α).events = [] := rfl

@[simp] theorem events_emit_bind (event : Event) (next : Unit → Run β) :
    (emit event >>= next).events = event :: (next ()).events := rfl

theorem events_ofExcept_bind (outcome : Except Fault α) (next : α → Run β) :
    (ofExcept outcome >>= next).events = [] ∨
      ∃ a, outcome = .ok a ∧ (ofExcept outcome >>= next).events = (next a).events := by
  cases outcome with
  | error fault => exact .inl rfl
  | ok a => exact .inr ⟨a, rfl, rfl⟩

/-- What follows a run without leaving events does not show. -/
theorem events_bind_quiet {run : Run α} {next : α → Run β} (h : ∀ a, (next a).events = []) :
    (run >>= next).events = run.events := by
  rw [events_bind]
  cases run.result <;> simp [h]

end Run

namespace Machine

variable {env : Env} {m m' : Machine} {verify : Bool} {code : Script} {sigs keys : List Bytes}

section Outcomes

theorem checkSig_eq_ok_iff : (checkSig env verify m).result = .ok m' ↔
    ∃ key sig rest code verdict, m.stack = key :: sig :: rest ∧
      env.removeSignature m.code sig = .ok code ∧
      (env.checkSig sig key code).result = .ok verdict ∧
      ¬(!verdict && env.flags.has .nullFail && sig ≠ []) = true ∧
      settle verify .checkSigVerifyFailed verdict { m with stack := rest } = .ok m' := by
  unfold checkSig
  constructor
  · intro h
    split at h
    · next key sig rest hstack =>
      obtain ⟨code, hcode, h⟩ := Run.bind_ok.mp h
      obtain ⟨verdict, hverdict, h⟩ := Run.bind_ok.mp h
      rw [Run.result_ite] at h
      split at h
      · cases h
      · next hnull =>
        exact ⟨key, sig, rest, code, verdict, hstack, hcode, hverdict, hnull, h⟩
    · cases h
  · rintro ⟨key, sig, rest, code, verdict, hstack, hcode, hverdict, hnull, hsettle⟩
    rw [hstack]
    refine Run.bind_ok.mpr ⟨code, hcode, Run.bind_ok.mpr ⟨verdict, hverdict, ?_⟩⟩
    rw [Run.result_ite, if_neg hnull]
    exact hsettle

theorem checkMultisig_eq_ok_iff : (checkMultisig env verify m).result = .ok m' ↔
    ∃ ms code verdict, Multisig.take env m = .ok ms ∧
      env.removeSignatures m.code ms.sigs = .ok code ∧
      (matchKeys env code ms.sigs ms.keys).result = .ok verdict ∧
      conclude env verify ms.sigs ms.dummy verdict { m with stack := ms.rest, ops := ms.ops } =
        .ok m' := by
  have hresult (ms : Multisig) (verdict : Bool) :
      (if !verdict && env.flags.has .nullFail && ms.sigs.any (· ≠ []) then
        Run.fail .nullFailMulti
      else if env.flags.has .nullDummy && ms.dummy ≠ [] then
        Run.fail (.dummyNotEmpty ms.dummy.length)
      else Run.ofExcept (settle verify .checkMultisigVerifyFailed verdict
        { m with stack := ms.rest, ops := ms.ops })).result =
      conclude env verify ms.sigs ms.dummy verdict { m with stack := ms.rest, ops := ms.ops } := by
    simp only [Run.result_ite, conclude]
    rfl
  unfold checkMultisig
  simp only [Run.bind_ok, Run.result_ofExcept, hresult]
  grind

end Outcomes

section Checks

/-- Events that are checks of the given signatures against the given keys, of which there are
no more than keys. -/
structure Checks (env : Env) (code : Script) (sigs keys : List Bytes) (events : List Event) :
    Prop where
  each : ∀ event ∈ events, ∃ sig ∈ sigs, ∃ key ∈ keys, event = .check sig key code env.version
  length_le : events.length ≤ keys.length

theorem Checks.nil (env : Env) (code : Script) (sigs keys : List Bytes) :
    Checks env code sigs keys [] := ⟨by simp, Nat.zero_le _⟩

theorem Checks.mono {more : List Bytes} {events : List Event}
    (h : Checks env code sigs keys events) (hsigs : sigs ⊆ more) :
    Checks env code more keys events := by
  refine ⟨fun event hevent => ?_, h.length_le⟩
  obtain ⟨sig, hsig, key, hkey, heq⟩ := h.each event hevent
  exact ⟨sig, hsigs hsig, key, hkey, heq⟩

theorem Checks.append {keys' : List Bytes} {events events' : List Event}
    (h : Checks env code sigs keys events) (h' : Checks env code sigs keys' events') :
    Checks env code sigs (keys ++ keys') (events ++ events') := by
  constructor
  · intro event hevent
    rcases List.mem_append.mp hevent with hevent | hevent
    · obtain ⟨sig, hsig, key, hkey, heq⟩ := h.each event hevent
      exact ⟨sig, hsig, key, List.mem_append_left _ hkey, heq⟩
    · obtain ⟨sig, hsig, key, hkey, heq⟩ := h'.each event hevent
      exact ⟨sig, hsig, key, List.mem_append_right _ hkey, heq⟩
  · have hlength := h.length_le
    have hlength' := h'.length_le
    simp only [List.length_append]
    omega

theorem Checks.bind {α β : Type} {run : Run α} {next : α → Run β} {keys' : List Bytes}
    (h : Checks env code sigs keys run.events)
    (hnext : ∀ a, Checks env code sigs keys' (next a).events) :
    Checks env code sigs (keys ++ keys') (run >>= next).events := by
  rw [Run.events_bind]
  refine h.append ?_
  cases run.result with
  | error fault => exact .nil env code _ _
  | ok a => exact hnext a

theorem checkSig_checks (env : Env) (sig key : Bytes) (code : Script) :
    Checks env code [sig] [key] (env.checkSig sig key code).events := by
  have hnone := Checks.nil env code [sig] [key]
  unfold Env.checkSig
  rcases Run.events_ofExcept_bind (env.checkSignatureEncoding sig) _ with h | ⟨_, _, h⟩
  · rwa [h]
  rw [h]
  rcases Run.events_ofExcept_bind (env.checkKeyEncoding key) _ with h | ⟨_, _, h⟩
  · rwa [h]
  rw [h, Run.events_emit_bind, Run.events_pure]
  exact ⟨by simp, Nat.le_refl _⟩

/-- Each check of the walk uses up a key. -/
theorem matchKeys_checks (env : Env) (code : Script) (sigs keys : List Bytes) :
    Checks env code sigs keys (matchKeys env code sigs keys).events := by
  induction keys generalizing sigs with
  | nil => cases sigs <;> exact .nil env code _ _
  | cons key keys ih =>
    cases sigs with
    | nil => exact .nil env code _ _
    | cons sig sigs =>
      have hsig : [sig] ⊆ sig :: sigs := by simp
      have hfirst := (checkSig_checks env sig key code).mono hsig
      rw [matchKeys]
      refine hfirst.bind fun good => ?_
      have hleft : (if good = true then sigs else sig :: sigs) ⊆ sig :: sigs := by
        split
        · exact List.subset_cons_self sig sigs
        · exact List.Subset.refl _
      have hwalk := (ih (if good = true then sigs else sig :: sigs)).mono hleft
      dsimp only
      generalize (if good = true then sigs else sig :: sigs) = left at hwalk ⊢
      split
      · exact .nil env code _ _
      · exact hwalk

/-- The operands of a signature operation: its signatures, and the keys that it checks them
against. -/
inductive Operands (env : Env) (s : Stack) : Operation → List Bytes → List Bytes → Prop
  | single {verify key sig rest} : s = key :: sig :: rest →
    Operands env s (.checkSig verify) [sig] [key]
  | multi {verify keys sigs dummy rest} : Multisig.Layout env s keys sigs dummy rest →
    Operands env s (.checkMultisig verify) sigs keys

theorem checkSig_single (env : Env) (verify : Bool) (m : Machine) :
    (checkSig env verify m).events = [] ∨ ∃ sigs keys code,
      Operands env m.stack (.checkSig verify) sigs keys ∧
      env.removeSignatures m.code sigs = .ok code ∧
      Checks env code sigs keys (checkSig env verify m).events := by
  unfold checkSig
  split
  · next key sig rest hstack =>
    rcases Run.events_ofExcept_bind (env.removeSignature m.code sig) _ with h | ⟨code, hcode, h⟩
    · exact .inl h
    · refine .inr ⟨[sig], [key], code, .single hstack, ?_, ?_⟩
      · exact bind_eq_ok.mpr ⟨code, hcode, rfl⟩
      · rw [h, Run.events_bind_quiet]
        · exact checkSig_checks env sig key code
        · intro verdict
          split <;> rfl
  · exact .inl rfl

theorem checkMultisig_multi (env : Env) (verify : Bool) (m : Machine) :
    (checkMultisig env verify m).events = [] ∨ ∃ sigs keys code,
      Operands env m.stack (.checkMultisig verify) sigs keys ∧
      env.removeSignatures m.code sigs = .ok code ∧ m.ops + keys.length ≤ env.limits.maxOps ∧
      Checks env code sigs keys (checkMultisig env verify m).events := by
  unfold checkMultisig
  rcases Run.events_ofExcept_bind (Multisig.take env m) _ with h | ⟨ms, htake, h⟩
  · exact .inl h
  rw [h]
  rcases Run.events_ofExcept_bind (env.removeSignatures m.code ms.sigs) _ with h | ⟨code, hcode, h⟩
  · exact .inl h
  obtain ⟨hlayout, hops, hlimit⟩ := Multisig.layout_of_take htake
  refine .inr ⟨ms.sigs, ms.keys, code, .multi hlayout, hcode, hops ▸ hlimit, ?_⟩
  rw [h, Run.events_bind_quiet]
  · exact matchKeys_checks env code ms.sigs ms.keys
  · intro verdict
    split
    · rfl
    · split <;> rfl

end Checks

end Machine

end CoinScript
