import CoinScript.Proofs.WitnessSpend

/-! # Spends of key hashes

A witness program of 20 bytes is the hash of a key. Its witness is a signature and the key, and
all that decides is whether the key has the hash, the encodings are admitted, and the context
finds the signature good for the script that the program stands for.
-/
namespace CoinScript

theorem Env.verdict_eq_true_iff {env : Env} {sig key : Bytes} {code : Script} :
    env.verdict sig key code = true ↔
      ∃ ctx, env.context = some ctx ∧ ctx.checkSignature sig key code env.version = true := by
  unfold verdict
  cases env.context with
  | none => simp
  | some ctx => simp

theorem Script.witnessProgram?_keyHash {program : Bytes} (h : program.length = 20) :
    witnessProgram? (0x00 :: 0x14 :: program) = some (0, program) := by
  simp [witnessProgram?, h]

namespace Spend

variable {spend : Spend} {program : Bytes}

theorem programScript_keyHash_eq_ok_iff (h : program.length = 20) {found : Script × Witness} :
    (spend.programScript program).result = .ok found ↔
      spend.witness.length = 2 ∧ found = (Script.payToKeyHash program, spend.witness) := by
  unfold programScript
  rw [if_neg (by omega), if_pos h, Run.ite_fail_eq_ok_iff, Run.bind_ok]
  refine and_congr_right fun _ => ?_
  simp [eq_comm]

theorem checkItems_eq_ok_iff {items : Witness} : spend.checkItems items = .ok () ↔
    ∀ item ∈ items, item.length ≤ spend.limits.maxElementSize := by
  constructor
  · intro hitems item hitem
    exact checkItems_fits hitems item (List.mem_reverse.mpr hitem)
  · intro hitems
    have hnone : items.find? (fun item => spend.limits.maxElementSize < item.length) = none := by
      rw [List.find?_eq_none]
      intro item hitem
      simpa using hitems item hitem
    rw [checkItems, hnone]

/-- A key hash leaves a true item exactly if the check of the signature goes through and is good;
rules on bad signatures do not come into it. -/
theorem execute_keyHash (hlimits : ({} : Limits).Within spend.limits) (h : program.length = 20)
    {sig key : Bytes} {code : Script} (hcode : code = Script.payToKeyHash program) :
    (∃ left, (spend.execute .witnessV0 code [key, sig]).result = .ok left ∧
      left.length = 1 ∧ left.topIsTrue = true) ↔
    spend.digests.hash160 key = program ∧
      ((spend.environment .witnessV0 code).checkSig sig key code).result = .ok true := by
  have hheight : 1000 ≤ spend.limits.maxStackSize := hlimits.stack
  have hexecute (left : Stack) :
      (spend.execute .witnessV0 code [key, sig]).result = .ok left ↔ _ :=
    Machine.execute_payToKeyHash hlimits h hcode nofun
  simp only [hexecute, Env.checkSig_eq_ok_iff]
  constructor
  · rintro ⟨_, ⟨_, _, rest, hstack, -, hhash, hsig, hkey, -, rfl⟩, -, htrue⟩
    cases hstack
    rw [Stack.topIsTrue, Bytes.isTrue_ofBool] at htrue
    exact ⟨hhash, hsig, hkey, htrue.symm⟩
  · rintro ⟨hhash, hsig, hkey, hgood⟩
    refine ⟨[Bytes.ofBool true], ⟨key, sig, [], rfl, ?_, hhash, hsig, hkey, ?_, ?_⟩, rfl, ?_⟩
    · exact Nat.le_trans (by decide) hheight
    · intro hbad
      cases hgood.trans hbad
    · exact congrArg (fun good => [Bytes.ofBool good]) hgood
    · exact Bytes.isTrue_ofBool true

theorem verifyProgram_keyHash_eq_ok_iff (hlimits : ({} : Limits).Within spend.limits)
    (h : program.length = 20) {code : Script} (hcode : code = Script.payToKeyHash program) :
    (spend.verifyProgram 0 program).result = .ok () ↔
      ∃ sig key, spend.witness = [sig, key] ∧ sig.length ≤ spend.limits.maxElementSize ∧
        key.length ≤ spend.limits.maxElementSize ∧ spend.digests.hash160 key = program ∧
        ((spend.environment .witnessV0 code).checkSig sig key code).result = .ok true := by
  unfold verifyProgram
  simp only [↓reduceIte, Run.bind_ok, Run.ite_fail_eq_ok_iff, Run.result_ofExcept, Run.result_pure,
    programScript_keyHash_eq_ok_iff h, ← hcode]
  constructor
  · rintro ⟨_, ⟨hcount, rfl⟩, _, hitems, left, hleft, ⟨hone, htrue⟩, -⟩
    obtain ⟨sig, key, hwitness⟩ := List.length_eq_two.mp hcount
    rw [hwitness] at hitems hleft
    replace hitems := checkItems_eq_ok_iff.mp hitems
    obtain ⟨hhash, hgood⟩ := (execute_keyHash hlimits h hcode).mp ⟨left, hleft, hone, htrue⟩
    exact ⟨sig, key, hwitness, hitems sig (by simp), hitems key (by simp), hhash, hgood⟩
  · rintro ⟨sig, key, hwitness, hsig, hkey, hhash, hgood⟩
    obtain ⟨left, hleft, hone, htrue⟩ := (execute_keyHash hlimits h hcode).mpr ⟨hhash, hgood⟩
    refine ⟨(code, [sig, key]), ⟨?_, ?_⟩, (), ?_, left, hleft, ⟨hone, htrue⟩, trivial⟩
    · rw [hwitness]
      rfl
    · rw [hwitness]
    · rw [checkItems_eq_ok_iff]
      simp [hsig, hkey]

end Spend

/-- A program that is the hash of a key is spent without a signature script exactly when the
program is true as an item and the witness is a signature and a key with that hash, both admitted
by the rules for their encoding, and the signature is good for the script that pays to the key. -/
theorem keyHash_spent_iff (spend : Spend) (program : Bytes) (hlimits : spend.limits = {})
    (hprogram : program.length = 20) (hpubkey : spend.scriptPubkey = 0x00 :: 0x14 :: program)
    (hsig : spend.scriptSig = []) (hwitness : spend.flags.has .witness = true) :
    let code : Script := 0x76 :: 0xa9 :: 0x14 :: (program ++ [0x88, 0xac])
    let env : Env := spend.environment .witnessV0 code
    spend.verify.result = .ok () ↔ program.isTrue = true ∧
      ∃ sig key, spend.witness = [sig, key] ∧ sig.length ≤ 520 ∧ key.length ≤ 520 ∧
        spend.digests.hash160 key = program ∧ env.checkSignatureEncoding sig = .ok () ∧
        env.checkKeyEncoding key = .ok () ∧
        ∃ ctx, spend.context = some ctx ∧ ctx.checkSignature sig key code .witnessV0 = true := by
  intro code env
  have hwithin : ({} : Limits).Within spend.limits := .of_eq hlimits
  have helement : spend.limits.maxElementSize = 520 := by rw [hlimits]
  have hcode : code = Script.payToKeyHash program := (Script.payToKeyHash_of_length hprogram).symm
  have hfound : spend.scriptPubkey.witnessProgram? = some (0, program) := by
    rw [hpubkey]
    exact Script.witnessProgram?_keyHash hprogram
  have hverdict (sig key : Bytes) : true = env.verdict sig key code ↔
      ∃ ctx, spend.context = some ctx ∧ ctx.checkSignature sig key code .witnessV0 = true :=
    eq_comm.trans Env.verdict_eq_true_iff
  rw [Spend.verify_program_eq_ok_iff hwithin hwitness hfound,
    Spend.verifyProgram_keyHash_eq_ok_iff hwithin hprogram hcode, helement]
  simp only [hsig, true_and, Env.checkSig_eq_ok_iff, ← hverdict]
  rfl

def signingKey : Bytes := 0x02 :: List.replicate 32 0x01

/-- The shortest signature that is strictly encoded, with the hash type for all of a transaction. -/
def shortSignature : Bytes := [0x30, 0x06, 0x02, 0x01, 0x01, 0x02, 0x01, 0x01, 0x01]

/-- A spend of the key's hash under all the rules for relaying, in a context where one signature is
good for one key and one script. -/
def signedSpend : Spend where
  scriptSig := []
  witness := [shortSignature, signingKey]
  scriptPubkey := 0x00 :: 0x14 :: Digest.hash160 signingKey
  flags := Flags.standard
  context := some
    { lockTime := 0
      version := 2
      sequence := 0
      signatureHash := fun _ _ _ => []
      checkSignature := fun sig key code version =>
        sig = shortSignature ∧ key = signingKey ∧ version = .witnessV0 ∧
          code = 0x76 :: 0xa9 :: 0x14 :: (Digest.hash160 signingKey ++ [0x88, 0xac]) }

theorem signedSpend_accepted : signedSpend.verify.result = .ok () := by
  have hspent := keyHash_spent_iff signedSpend (Digest.hash160 signingKey) rfl
    (Digests.standard.length_hash160 _) rfl rfl (by decide)
  refine hspent.mpr ⟨by decide +kernel, shortSignature, signingKey, rfl, by decide, by decide, rfl,
    by decide +kernel, by decide +kernel, _, rfl, ?_⟩
  exact decide_eq_true ⟨rfl, rfl, rfl, rfl⟩

end CoinScript
