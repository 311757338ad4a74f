import CoinScript.Proofs.Relaxation
import CoinScript.Proofs.StackEffect
import CoinScript.Proofs.StraightLine
import CoinScript.Script.Pattern

/-! # Output scripts

The scripts that outputs are recognised by have no branches, so what they do to a stack can be
said in one line each. A script hash asks for a script that has it; a witness program is pushed;
a key hash asks for a key that has it and for a signature by that key.
-/
namespace CoinScript

namespace Instruction

variable {data : Bytes}

theorem ofData_of_direct (h : data.length ≤ 75) :
    ofData data = { opcode := UInt8.ofNat data.length, data } := by
  simp [ofData, h]

theorem isPush_ofData (data : Bytes) : (ofData data).isPush = true := by
  unfold isPush
  by_cases hdirect : data.length ≤ 75
  · refine isPush_of_direct ?_
    rw [ofData_of_direct hdirect, UInt8.le_iff_toNat_le, UInt8.toNat_ofNat']
    exact Nat.le_trans (Nat.mod_le _ _) hdirect
  · simp only [ofData, hdirect, ↓reduceIte]
    split
    · rfl
    · split <;> rfl

theorem isConstant_ofData (data : Bytes) : (ofData data).isConstant = true := by
  have hpush : (ofData data).opcode ≤ Opcode.pushData4 := by
    simpa [isPush, Opcode.isPush] using isPush_ofData data
  have hsixteen : Opcode.pushData4 ≤ Opcode.sixteen := by decide
  exact Bool.and_eq_true_iff.mpr ⟨rfl, decide_eq_true (UInt8.le_trans hpush hsixteen)⟩

theorem isMinimal_ofData (hdata : 2 ≤ data.length) : (ofData data).isMinimal = true := by
  have hvalue (h : data.length ≤ 75) : (UInt8.ofNat data.length).toNat = data.length := by
    rw [UInt8.toNat_ofNat']
    omega
  match data, hdata with
  | first :: second :: rest, _ =>
    simp only [isMinimal, isPush_ofData, Bool.not_true, Bool.false_eq_true, ↓reduceIte]
    grind [ofData]

theorem encode_ofData_of_direct (h : data.length ≤ 75) :
    (ofData data).encode = UInt8.ofNat data.length :: data := by
  have hdirect : UInt8.ofNat data.length ≤ 75 := by
    rw [UInt8.le_iff_toNat_le, UInt8.toNat_ofNat']
    exact Nat.le_trans (Nat.mod_le _ _) h
  rw [encode_of_whole rfl, ofData_of_direct h, body]
  simp only [lengthWidth_of_direct hdirect, isPush_of_direct hdirect, Bytes.ofNatLE, ↓reduceIte,
    List.nil_append]

end Instruction

theorem Script.ofInstructions_singleton (ins : Instruction) :
    ofInstructions [ins] = ins.encode := by
  simp [ofInstructions]

theorem Script.isPushOnly_push {data : Bytes} (h : data.length < 2 ^ 32) :
    isPushOnly (Instruction.ofData data).encode = true := by
  have hinstructions :
      instructions (Instruction.ofData data).encode = [Instruction.ofData data] := by
    rw [← ofInstructions_singleton]
    exact instructions_ofInstructions (.cons (Instruction.wellFormed_ofData h) .nil)
  simp [isPushOnly, hinstructions, Instruction.isConstant_ofData]

theorem Script.isPushOnly_nil : isPushOnly [] = true := by
  have hinstructions : instructions [] = [] := instructions_ofInstructions .nil
  rw [isPushOnly, hinstructions]
  rfl

namespace Machine

variable {env : Env} {s t : Stack}

theorem execute_empty (hscript : env.script = []) : (env.execute s).result = .ok t ↔ t = s := by
  have hshort : env.script.length ≤ env.limits.maxScriptSize := by
    rw [hscript]
    exact Nat.zero_le _
  rw [execute_plain .nil hscript hshort (Nat.zero_le _), Env.compose_nil_eq_ok_iff]

theorem plain_data {data : Bytes} (hdata : 2 ≤ data.length) (hsize : data.length < 2 ^ 32)
    (helement : data.length ≤ env.limits.maxElementSize) :
    Plain env (.ofData data) fun s => .ok (s.push data) :=
  plain_push (Instruction.wellFormed_ofData hsize) (Instruction.isPush_ofData data) helement
    fun _ => Instruction.isMinimal_ofData hdata

theorem execute_plain_of_short {inss : List Instruction} {fs : List (Stack → Except Fault Stack)}
    (hlimits : ({} : Limits).Within env.limits) (h : List.Forall₂ (Plain env) inss fs)
    (hscript : env.script = Script.ofInstructions inss) (hshort : env.script.length ≤ 201)
    (s : Stack) : (env.execute s).result = env.compose fs s := by
  have hsize : 10000 ≤ env.limits.maxScriptSize := hlimits.script
  have hops : 201 ≤ env.limits.maxOps := hlimits.ops
  -- Every instruction has a byte, so a short script has few of them.
  have hcount : inss.countP (Opcode.isCounted ·.opcode) ≤ env.script.length := by
    rw [hscript]
    exact Nat.le_trans List.countP_le_length (Script.length_le_length_ofInstructions inss)
  exact execute_plain h hscript (by omega) (by omega) s

theorem execute_push {data : Bytes} (hlimits : ({} : Limits).Within env.limits)
    (hscript : env.script = (Instruction.ofData data).encode) (hdata : 2 ≤ data.length)
    (hdirect : data.length ≤ 75) :
    (env.execute s).result = .ok t ↔ s.length + 1 ≤ env.limits.maxStackSize ∧ t = data :: s := by
  have helement : 520 ≤ env.limits.maxElementSize := hlimits.element
  have hplain : List.Forall₂ (Plain env) [.ofData data] [fun s => .ok (s.push data)] :=
    .cons (plain_data hdata (by omega) (by omega)) .nil
  have hshort : env.script.length ≤ 201 := by
    rw [hscript, Instruction.encode_ofData_of_direct hdirect, List.length_cons]
    omega
  rw [execute_plain_of_short hlimits hplain
    (hscript.trans (Script.ofInstructions_singleton _).symm) hshort]
  simp only [Env.compose_cons_eq_ok_iff, Env.compose_nil_eq_ok_iff, Except.ok.injEq,
    exists_eq_left', Stack.push, List.length_cons]

end Machine

section ScriptHashes

def Script.payToScriptHash (hash : Bytes) : Script :=
  Opcode.hash160 :: 20 :: (hash ++ [Opcode.equal])

theorem Script.scriptHash?_eq_some_iff {s : Script} {hash : Bytes} :
    s.scriptHash? = some hash ↔ hash.length = 20 ∧ s = payToScriptHash hash := by
  constructor
  · intro h
    unfold scriptHash? at h
    split at h
    · next first second rest =>
      split at h
      · next hash last hsplit =>
        obtain ⟨rfl, hlength⟩ := Bytes.split?_eq_some hsplit
        split at h
        · next hbytes =>
          obtain ⟨rfl, rfl, rfl⟩ := hbytes
          cases h
          exact ⟨hlength, rfl⟩
        · cases h
      · cases h
    · cases h
  · rintro ⟨hlength, rfl⟩
    have hsplit := Bytes.split?_append hash [Opcode.equal]
    rw [hlength] at hsplit
    simp [payToScriptHash, scriptHash?, hsplit]

theorem Script.isScriptHash_iff {s : Script} :
    s.isScriptHash = true ↔ ∃ hash, hash.length = 20 ∧ s = payToScriptHash hash := by
  simp only [isScriptHash, Option.isSome_iff_exists, scriptHash?_eq_some_iff]

theorem Machine.execute_payToScriptHash {env : Env} {hash : Bytes} {s t : Stack}
    (hlimits : ({} : Limits).Within env.limits) (hhash : hash.length = 20)
    (hscript : env.script = Script.payToScriptHash hash) :
    (env.execute s).result = .ok t ↔ ∃ redeem below, s = redeem :: below ∧
      below.length + 2 ≤ env.limits.maxStackSize ∧
      t = Bytes.ofBool (hash == env.digests.hash160 redeem) :: below := by
  have helement : 520 ≤ env.limits.maxElementSize := hlimits.element
  have hplain : List.Forall₂ (Plain env)
      [.ofOpcode Opcode.hash160, .ofData hash, .ofOpcode Opcode.equal]
      [(StackOp.hash .hash160).run env.digests, fun s => .ok (s.push hash),
        StackOp.equal.run env.digests] := by
    refine .cons (plain_stack (by decide) rfl) (.cons ?_ (.cons (plain_stack (by decide) rfl) .nil))
    exact plain_data (by omega) (by omega) (by omega)
  have hinss : env.script = Script.ofInstructions
      [.ofOpcode Opcode.hash160, .ofData hash, .ofOpcode Opcode.equal] := by
    have hpush : (Instruction.ofData hash).encode = 20 :: hash := by
      rw [Instruction.encode_ofData_of_direct (by omega), hhash]
      rfl
    simp only [hscript, Script.ofInstructions, List.flatMap_cons, List.flatMap_nil, hpush]
    rfl
  have hshort : env.script.length ≤ 201 := by
    simp [hscript, Script.payToScriptHash, hhash]
  rw [execute_plain_of_short hlimits hplain hinss hshort]
  simp only [Env.compose_cons_eq_ok_iff, Env.compose_nil_eq_ok_iff]
  constructor
  · rintro ⟨hashed, hhashed, -, _, hpushed, hheight, _, hequal, -, rfl⟩
    cases hpushed
    obtain ⟨⟨redeem, below⟩, hpop, hhashed⟩ := bind_eq_ok.mp hhashed
    cases hhashed
    cases hequal
    refine ⟨redeem, below, Stack.pop_eq_ok_iff.mp hpop, hheight, rfl⟩
  · rintro ⟨redeem, below, rfl, hheight, rfl⟩
    refine ⟨_, rfl, ?_, _, rfl, hheight, _, rfl, ?_, rfl⟩
    · exact Nat.le_of_succ_le hheight
    · exact Nat.le_of_succ_le hheight

end ScriptHashes

section WitnessPrograms

variable {version : Nat} {program : Bytes}

/-- A witness program is a version from zero to sixteen and one push. -/
theorem Script.witnessProgram?_eq_some {s : Script}
    (h : s.witnessProgram? = some (version, program)) :
    ∃ first, s = first :: (Instruction.ofData program).encode ∧
      2 ≤ program.length ∧ program.length ≤ 40 ∧
      (first = 0 ∧ version = 0 ∨
        (Opcode.one ≤ first ∧ first ≤ Opcode.sixteen) ∧ version = Opcode.smallValue first) := by
  unfold witnessProgram? at h
  split at h
  · next first second rest =>
    split at h
    · next hlengths =>
      obtain ⟨hlong, hshort, hsecond⟩ := hlengths
      have hpush : (Instruction.ofData rest).encode = second :: rest := by
        rw [Instruction.encode_ofData_of_direct (by omega), ← hsecond, UInt8.ofNat_toNat]
      split at h
      · next hzero =>
        cases h
        exact ⟨first, by rw [hpush], hlong, hshort, .inl ⟨hzero, rfl⟩⟩
      · split at h
        · next hsmall =>
          cases h
          exact ⟨first, by rw [hpush], hlong, hshort, .inr ⟨hsmall, rfl⟩⟩
        · cases h
    · cases h
  · cases h

theorem Script.witnessProgram?_payToScriptHash (hash : Bytes) :
    (payToScriptHash hash).witnessProgram? = none := by
  have hzero : ¬Opcode.hash160 = 0 := by decide
  have hsmall : ¬(Opcode.one ≤ Opcode.hash160 ∧ Opcode.hash160 ≤ Opcode.sixteen) := by decide
  simp [payToScriptHash, witnessProgram?, hzero, hsmall]

theorem Script.isScriptHash_of_witnessProgram {s : Script}
    (h : s.witnessProgram? = some (version, program)) : s.isScriptHash = false := by
  rw [Bool.eq_false_iff]
  intro hhash
  obtain ⟨hash, -, rfl⟩ := isScriptHash_iff.mp hhash
  rw [witnessProgram?_payToScriptHash] at h
  cases h

namespace Machine

variable {env : Env} {s t : Stack} {first : UInt8}

theorem plain_version
    (h : first = 0 ∧ version = 0 ∨
      (Opcode.one ≤ first ∧ first ≤ Opcode.sixteen) ∧ version = Opcode.smallValue first) :
    Plain env (.ofOpcode first) fun s => .ok (s.pushNum version) := by
  rcases h with ⟨rfl, rfl⟩ | ⟨⟨hone, hsixteen⟩, rfl⟩
  · have hwell : (Instruction.ofOpcode 0).WellFormed :=
      ⟨rfl, fun _ => rfl, fun hlong => absurd hlong (by decide), fun _ => rfl⟩
    have hzero : Number.encode ((0 : Nat) : Int) = [] := by
      simp [Number.encode, Bytes.ofNat, Number.withSign]
    have hpush : Plain env (.ofOpcode 0) fun s => .ok (s.push []) :=
      plain_push hwell rfl (Nat.zero_le _) fun _ => rfl
    simpa only [Stack.pushNum, hzero] using hpush
  · have hbare : Opcode.isBare first = true :=
      Opcode.forall_smallInt (P := fun first => Opcode.isBare first = true) (by decide) hone
        hsixteen
    exact plain_constant hbare (Operation.ofOpcode_smallInt hone hsixteen)

theorem execute_witnessProgram (hlimits : ({} : Limits).Within env.limits)
    (hscript : env.script.witnessProgram? = some (version, program)) :
    (env.execute s).result = .ok t ↔ s.length + 2 ≤ env.limits.maxStackSize ∧
      t = program :: Number.encode version :: s := by
  obtain ⟨first, hbytes, hlong, hshort, hfirst⟩ := Script.witnessProgram?_eq_some hscript
  have helement : 520 ≤ env.limits.maxElementSize := hlimits.element
  have hplain : List.Forall₂ (Plain env) [.ofOpcode first, .ofData program]
      [fun s => .ok (s.pushNum version), fun s => .ok (s.push program)] :=
    .cons (plain_version hfirst) (.cons (plain_data hlong (by omega) (by omega)) .nil)
  have hbare : (Instruction.ofOpcode first).encode = [first] := by
    rcases hfirst with ⟨rfl, -⟩ | ⟨⟨hone, hsixteen⟩, -⟩
    · rfl
    · exact Opcode.forall_smallInt (P := fun first => (Instruction.ofOpcode first).encode = [first])
        (by decide) hone hsixteen
  have hinss : env.script = Script.ofInstructions [.ofOpcode first, .ofData program] := by
    rw [hbytes, Script.ofInstructions_cons, Script.ofInstructions_singleton, hbare]
    rfl
  have hlength : env.script.length ≤ 201 := by
    rw [hbytes, Instruction.encode_ofData_of_direct (by omega), List.length_cons, List.length_cons]
    omega
  rw [execute_plain_of_short hlimits hplain hinss hlength]
  simp only [Env.compose_cons_eq_ok_iff, Env.compose_nil_eq_ok_iff, Except.ok.injEq,
    exists_eq_left', Stack.push, Stack.pushNum, List.length_cons]
  constructor
  · rintro ⟨-, hheight, rfl⟩
    exact ⟨hheight, rfl⟩
  · rintro ⟨hheight, rfl⟩
    exact ⟨Nat.le_of_succ_le hheight, hheight, rfl⟩

end Machine

end WitnessPrograms

section KeyHashes

variable {env : Env}

theorem Env.checkSig_eq_ok_iff {sig key : Bytes} {code : Script} {good : Bool} :
    (env.checkSig sig key code).result = .ok good ↔
      env.checkSignatureEncoding sig = .ok () ∧ env.checkKeyEncoding key = .ok () ∧
        good = env.verdict sig key code := by
  simp only [checkSig, Run.bind_ok, Run.result_ofExcept, Run.result_emit, Run.result_pure,
    Except.ok.injEq]
  grind

theorem Script.payToKeyHash_of_length {hash : Bytes} (hhash : hash.length = 20) :
    payToKeyHash hash = 0x76 :: 0xa9 :: 0x14 :: (hash ++ [0x88, 0xac]) := by
  rw [payToKeyHash, Instruction.encode_ofData_of_direct (by omega), hhash]
  rfl

namespace Machine

variable {s t : Stack}

/-- Script code of a witness stays whole, so a check by `CHECKSIG` covers all of the script. -/
theorem checkSigOn_eq_ok_iff (hversion : env.version ≠ .base) :
    checkSigOn env false s = .ok t ↔ ∃ key sig rest, s = key :: sig :: rest ∧
      env.checkSignatureEncoding sig = .ok () ∧ env.checkKeyEncoding key = .ok () ∧
      (env.verdict sig key env.script = false → env.flags.has .nullFail = true → sig = []) ∧
      t = Bytes.ofBool (env.verdict sig key env.script) :: rest := by
  unfold checkSigOn
  simp only [bind_eq_ok, checkSig_eq_ok_iff, Env.checkSig_eq_ok_iff, pure_eq_ok]
  constructor
  · rintro ⟨_, ⟨key, sig, rest, code, _, hstack, hcode, ⟨hsig, hkey, rfl⟩, hnull, hsettle⟩, rfl⟩
    rw [Env.removeSignature_of_witness hversion] at hcode
    cases hcode
    cases hsettle
    exact ⟨key, sig, rest, hstack, hsig, hkey, by simpa using hnull, rfl⟩
  · rintro ⟨key, sig, rest, rfl, hsig, hkey, hnull, rfl⟩
    have hcode := Env.removeSignature_of_witness hversion env.script sig
    exact ⟨_, ⟨key, sig, rest, env.script, _, rfl, hcode, ⟨hsig, hkey, rfl⟩, by simpa using hnull,
      rfl⟩, rfl⟩

/-- In a witness, a key hash takes a key that has it and a signature, and leaves the verdict on
the signature. -/
theorem execute_payToKeyHash {hash : Bytes} (hlimits : ({} : Limits).Within env.limits)
    (hhash : hash.length = 20) (hscript : env.script = Script.payToKeyHash hash)
    (hversion : env.version ≠ .base) :
    (env.execute s).result = .ok t ↔ ∃ key sig rest, s = key :: sig :: rest ∧
      rest.length + 4 ≤ env.limits.maxStackSize ∧ env.digests.hash160 key = hash ∧
      env.checkSignatureEncoding sig = .ok () ∧ env.checkKeyEncoding key = .ok () ∧
      (env.verdict sig key env.script = false → env.flags.has .nullFail = true → sig = []) ∧
      t = Bytes.ofBool (env.verdict sig key env.script) :: rest := by
  have helement : 520 ≤ env.limits.maxElementSize := hlimits.element
  have hplain : List.Forall₂ (Plain env)
      [.ofOpcode Opcode.dup, .ofOpcode Opcode.hash160, .ofData hash, .ofOpcode Opcode.equalVerify,
        .ofOpcode Opcode.checkSig]
      [(StackOp.dup 1).run env.digests, (StackOp.hash .hash160).run env.digests,
        fun s => .ok (s.push hash), StackOp.equalVerify.run env.digests, checkSigOn env false] := by
    refine .cons (plain_stack (by decide) rfl) (.cons (plain_stack (by decide) rfl) (.cons ?_
      (.cons (plain_stack (by decide) rfl) (.cons (plain_checkSig (by decide) rfl) .nil))))
    exact plain_data (by omega) (by omega) (by omega)
  have hinss : env.script = Script.ofInstructions
      [.ofOpcode Opcode.dup, .ofOpcode Opcode.hash160, .ofData hash, .ofOpcode Opcode.equalVerify,
        .ofOpcode Opcode.checkSig] := by
    simp only [hscript, Script.payToKeyHash, Script.ofInstructions, List.flatMap_cons,
      List.flatMap_nil, List.append_assoc]
    rfl
  have hshort : env.script.length ≤ 201 := by
    rw [hscript, Script.payToKeyHash_of_length hhash]
    simp [hhash]
  rw [execute_plain_of_short hlimits hplain hinss hshort]
  simp only [Env.compose_cons_eq_ok_iff, Env.compose_nil_eq_ok_iff, checkSigOn_eq_ok_iff hversion]
  constructor
  · rintro ⟨_, hdup, -, _, hhashed, -, _, hpushed, hheight, _, hequal, -, _, hchecked, -, rfl⟩
    obtain ⟨group, below, rfl, rfl, hgroup⟩ := Stack.dup_eq_ok_iff.mp hdup
    obtain ⟨key, rfl⟩ := List.length_eq_one_iff.mp hgroup
    cases hhashed
    cases hpushed
    replace hequal := (StackOp.run_equalVerify hash (env.digests.hash160 key)
      (key :: below)).symm.trans hequal
    split at hequal
    · next hsame =>
      cases hequal
      obtain ⟨key, sig, rest, hstack, hsig, hkey, hnull, rfl⟩ := hchecked
      cases hstack
      exact ⟨key, sig, rest, rfl, hheight, hsame.symm, hsig, hkey, hnull, rfl⟩
    · cases hequal
  · rintro ⟨key, sig, rest, rfl, hheight, rfl, hsig, hkey, hnull, rfl⟩
    have hdup : (StackOp.dup 1).run env.digests (key :: sig :: rest) =
        .ok (key :: key :: sig :: rest) :=
      Stack.dup_eq_ok_iff.mpr ⟨[key], sig :: rest, rfl, rfl, rfl⟩
    have hequal : StackOp.equalVerify.run env.digests
        (env.digests.hash160 key :: env.digests.hash160 key :: key :: sig :: rest) =
          .ok (key :: sig :: rest) :=
      (StackOp.run_equalVerify _ _ _).trans (if_pos rfl)
    have hlower (k : Nat) (hk : k ≤ 4) : rest.length + k ≤ env.limits.maxStackSize := by omega
    exact ⟨_, hdup, hlower 3 (by decide), _, rfl, hlower 3 (by decide), _, rfl, hheight, _, hequal,
      hlower 2 (by decide), _, ⟨key, sig, rest, rfl, hsig, hkey, hnull, rfl⟩,
      hlower 1 (by decide), rfl⟩

end Machine

end KeyHashes

end CoinScript
