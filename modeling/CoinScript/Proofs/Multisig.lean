import CoinScript.Machine.Signature
import CoinScript.Proofs.Outcome
import Mathlib.Data.List.Forall2
import Mathlib.Data.List.NodupEquivFin

/-! # The verdict of a multisignature

The walk down keys and signatures is greedy: a signature takes the first key that it
verifies against. Nothing is lost by that, so the walk decides whether the signatures can be
placed on keys in order, each on a key of its own that verifies it.
-/
namespace CoinScript

section Matching

variable {good : Bytes → Bytes → Prop} {sig key : Bytes} {sigs keys : List Bytes}

/-- The signatures can be placed on keys in order, each on a key that verifies it. -/
def OrderedMatching (good : Bytes → Bytes → Prop) (sigs keys : List Bytes) : Prop :=
  ∃ place : Fin sigs.length → Fin keys.length,
    StrictMono place ∧ ∀ i, good (sigs.get i) (keys.get (place i))

theorem orderedMatching_iff_sublistForall₂ :
    OrderedMatching good sigs keys ↔ List.SublistForall₂ good sigs keys := by
  rw [List.sublistForall₂_iff]
  constructor
  · rintro ⟨place, hmono, hgood⟩
    refine ⟨List.ofFn fun i => keys.get (place i), ?_, ?_⟩
    · rw [List.forall₂_iff_get]
      refine ⟨(List.length_ofFn).symm, fun i hi _ => ?_⟩
      simpa using hgood ⟨i, hi⟩
    · rw [List.sublist_iff_exists_fin_orderEmbedding_get_eq]
      let cast : Fin (List.ofFn fun i => keys.get (place i)).length ≃o Fin sigs.length :=
        Fin.castOrderIso List.length_ofFn
      refine ⟨cast.toOrderEmbedding.trans (OrderEmbedding.ofStrictMono place hmono), fun i => ?_⟩
      exact List.get_ofFn _ i
  · rintro ⟨taken, hgood, hsub⟩
    obtain ⟨hlength, hgood⟩ := List.forall₂_iff_get.mp hgood
    obtain ⟨place, hplace⟩ := List.sublist_iff_exists_fin_orderEmbedding_get_eq.mp hsub
    refine ⟨fun i => place (Fin.cast hlength i), ?_, fun i => ?_⟩
    · exact fun i j hij => place.strictMono hij
    · have h := hgood i i.isLt (hlength ▸ i.isLt)
      have htaken := hplace (Fin.cast hlength i)
      rw [← htaken]
      exact h

theorem orderedMatching_nil : OrderedMatching good [] keys :=
  orderedMatching_iff_sublistForall₂.mpr .nil

theorem OrderedMatching.length_le (h : OrderedMatching good sigs keys) :
    sigs.length ≤ keys.length := by
  rw [orderedMatching_iff_sublistForall₂, List.sublistForall₂_iff] at h
  obtain ⟨taken, hgood, hsub⟩ := h
  rw [hgood.length_eq]
  exact hsub.length_le

theorem OrderedMatching.tail (h : OrderedMatching good (sig :: sigs) keys) :
    OrderedMatching good sigs keys := by
  rw [orderedMatching_iff_sublistForall₂] at h ⊢
  generalize hall : sig :: sigs = all at h
  induction h with
  | nil => cases hall
  | cons _ hrest _ =>
    cases hall
    exact .cons_right hrest
  | cons_right _ ih => exact .cons_right (ih hall)

theorem orderedMatching_cons_bad (hbad : ¬good sig key) :
    OrderedMatching good (sig :: sigs) (key :: keys) ↔ OrderedMatching good (sig :: sigs) keys := by
  rw [orderedMatching_iff_sublistForall₂, orderedMatching_iff_sublistForall₂]
  constructor
  · intro h
    cases h with
    | cons hgood => exact absurd hgood hbad
    | cons_right h => exact h
  · exact .cons_right

theorem orderedMatching_cons_good (hgood : good sig key) :
    OrderedMatching good (sig :: sigs) (key :: keys) ↔ OrderedMatching good sigs keys := by
  constructor
  · intro h
    have hcases := orderedMatching_iff_sublistForall₂.mp h
    cases hcases with
    | cons _ hrest => exact orderedMatching_iff_sublistForall₂.mpr hrest
    -- A placement that leaves the key out has a later key for the signature, which is then free.
    | cons_right hlater => exact (orderedMatching_iff_sublistForall₂.mpr hlater).tail
  · intro h
    rw [orderedMatching_iff_sublistForall₂] at h ⊢
    exact .cons hgood h

end Matching

def encodingCodes : List FaultCode :=
  [.sigDer, .sigHighS, .sigHashType, .pubkeyType, .witnessPubkeyType]

namespace Env

/-- None of the rules on the encoding of signatures and keys is in force. -/
structure AnyEncoding (env : Env) : Prop where
  derSig : env.flags.has .derSig = false
  lowS : env.flags.has .lowS = false
  strictEnc : env.flags.has .strictEnc = false
  witnessPubkeyType : env.flags.has .witnessPubkeyType = false

variable {env : Env} {sig key : Bytes} {code : Script} {fault : Fault}

theorem checkSignatureEncoding_error (h : env.checkSignatureEncoding sig = .error fault) :
    fault.code ∈ encodingCodes := by
  unfold checkSignatureEncoding at h
  split at h
  · cases h
  · repeat' split at h
    all_goals cases h <;> simp [encodingCodes, Fault.code]

theorem checkKeyEncoding_error (h : env.checkKeyEncoding key = .error fault) :
    fault.code ∈ encodingCodes := by
  unfold checkKeyEncoding at h
  repeat' split at h
  all_goals cases h <;> simp [encodingCodes, Fault.code]

theorem checkSig_ok {good : Bool} (h : (env.checkSig sig key code).result = .ok good) :
    good = env.verdict sig key code := by
  obtain ⟨_, _, h⟩ := Run.bind_ok.mp h
  obtain ⟨_, _, h⟩ := Run.bind_ok.mp h
  obtain ⟨_, _, h⟩ := Run.bind_ok.mp h
  simpa using h.symm

theorem checkSig_error (h : (env.checkSig sig key code).result = .error fault) :
    fault.code ∈ encodingCodes := by
  rcases Run.bind_error.mp h with h | ⟨_, _, h⟩
  · exact checkSignatureEncoding_error h
  rcases Run.bind_error.mp h with h | ⟨_, _, h⟩
  · exact checkKeyEncoding_error h
  rcases Run.bind_error.mp h with h | ⟨_, _, h⟩
  · simp at h
  · simp at h

theorem AnyEncoding.checkSig_result (h : env.AnyEncoding) (sig key : Bytes) (code : Script) :
    (env.checkSig sig key code).result = .ok (env.verdict sig key code) := by
  have hsig : env.checkSignatureEncoding sig = .ok () := by
    unfold checkSignatureEncoding
    split <;> simp [h.derSig, h.lowS, h.strictEnc]
  have hkey : env.checkKeyEncoding key = .ok () := by
    simp [checkKeyEncoding, h.strictEnc, h.witnessPubkeyType]
  refine Run.bind_ok.mpr ⟨(), hsig, Run.bind_ok.mpr ⟨(), hkey, ?_⟩⟩
  exact Run.bind_ok.mpr ⟨(), rfl, rfl⟩

theorem removeSignatures_error {sigs : List Bytes}
    (h : env.removeSignatures code sigs = .error fault) : fault = .signatureInCode := by
  unfold removeSignatures at h
  induction sigs generalizing code with
  | nil => cases h
  | cons sig sigs ih =>
    rw [List.foldlM_cons] at h
    rcases bind_eq_error.mp h with h | ⟨next, -, h⟩
    · unfold removeSignature at h
      grind
    · exact ih h

def Verifies (env : Env) (code : Script) (sig key : Bytes) : Prop := env.verdict sig key code = true

end Env

namespace Machine

variable {env : Env} {code : Script} {sigs keys : List Bytes}

/-- One key of the walk: what is left of the signatures can be placed on the remaining keys
exactly when all of them could be placed on all keys. -/
theorem orderedMatching_walk {sig key : Bytes} {good : Bool}
    (hgood : good = env.verdict sig key code) :
    OrderedMatching (env.Verifies code) (sig :: sigs) (key :: keys) ↔
      OrderedMatching (env.Verifies code) (if good then sigs else sig :: sigs) keys := by
  cases good with
  | true => exact orderedMatching_cons_good hgood.symm
  | false =>
    apply orderedMatching_cons_bad
    simp [Env.Verifies, ← hgood]

theorem matchKeys_ok {verdict : Bool} (h : (matchKeys env code sigs keys).result = .ok verdict) :
    verdict = true ↔ OrderedMatching (env.Verifies code) sigs keys := by
  induction keys generalizing sigs with
  | nil =>
    cases sigs with
    | nil => simpa [matchKeys, orderedMatching_nil] using h.symm
    | cons sig sigs =>
      have hnone : ¬OrderedMatching (env.Verifies code) (sig :: sigs) [] := by
        intro hm
        simpa using hm.length_le
      simpa [matchKeys, hnone] using h.symm
  | cons key keys ih =>
    cases sigs with
    | nil => simpa [matchKeys, orderedMatching_nil] using h.symm
    | cons sig sigs =>
      obtain ⟨good, hgood, h⟩ := Run.bind_ok.mp h
      rw [orderedMatching_walk (Env.checkSig_ok hgood)]
      generalize (if good = true then sigs else sig :: sigs) = left at h ⊢
      rw [Run.result_ite] at h
      by_cases hshort : keys.length < left.length
      · -- The early exit: too few keys are left for any placement.
        have hnone : ¬OrderedMatching (env.Verifies code) left keys :=
          fun hm => absurd hm.length_le (Nat.not_le.mpr hshort)
        rw [if_pos hshort] at h
        simpa [hnone] using h.symm
      · rw [if_neg hshort] at h
        exact ih h

theorem matchKeys_error {fault : Fault} (h : (matchKeys env code sigs keys).result = .error fault) :
    fault.code ∈ encodingCodes := by
  induction keys generalizing sigs with
  | nil => cases sigs <;> simp [matchKeys] at h
  | cons key keys ih =>
    cases sigs with
    | nil => simp [matchKeys] at h
    | cons sig sigs =>
      rcases Run.bind_error.mp h with h | ⟨good, -, h⟩
      · exact Env.checkSig_error h
      · generalize (if good = true then sigs else sig :: sigs) = left at h
        rw [Run.result_ite] at h
        split at h
        · simp at h
        · exact ih h

theorem matchKeys_total (h : env.AnyEncoding) (code : Script) (sigs keys : List Bytes) :
    ∃ verdict, (matchKeys env code sigs keys).result = .ok verdict := by
  induction keys generalizing sigs with
  | nil => cases sigs <;> exact ⟨_, rfl⟩
  | cons key keys ih =>
    cases sigs with
    | nil => exact ⟨_, rfl⟩
    | cons sig sigs =>
      simp only [matchKeys, Run.bind_ok, h.checkSig_result, Run.result_ite]
      by_cases hshort : keys.length <
          (if env.verdict sig key code = true then sigs else sig :: sigs).length
      · exact ⟨false, _, rfl, if_pos hshort⟩
      · obtain ⟨verdict, hverdict⟩ :=
          ih (if env.verdict sig key code = true then sigs else sig :: sigs)
        exact ⟨verdict, _, rfl, (if_neg hshort).trans hverdict⟩

namespace Multisig

def Counts (env : Env) (item : Bytes) (n : Nat) : Prop :=
  ∃ value, Number.read env.numberFormat item = .ok value ∧ Number.clamp32 value = n

/-- From the top: the number of keys, the keys, the number of signatures, the signatures, one
item that nothing uses, and the rest. Both numbers pass their checks. -/
def Layout (env : Env) (s : Stack) (keys sigs : List Bytes) (dummy : Bytes) (rest : Stack) : Prop :=
  ∃ keyCount sigCount : Bytes,
    s = keyCount :: (keys ++ sigCount :: (sigs ++ dummy :: rest)) ∧
    Counts env keyCount keys.length ∧ keys.length ≤ env.limits.maxKeysPerMultisig ∧
    Counts env sigCount sigs.length ∧ sigs.length ≤ keys.length

variable {dummy : Bytes} {rest : Stack}

theorem countAt_of_counts {s : Stack} {depth n : Nat} {item : Bytes}
    (hitem : s[depth - 1]? = some item) (h : Counts env item n) : countAt env s depth = .ok n := by
  obtain ⟨value, hread, hclamp⟩ := h
  unfold countAt
  rw [hitem]
  exact bind_eq_ok.mpr ⟨value, hread, by simp [hclamp]⟩

/-- The operands of a multisignature are found where the layout has them, unless the keys
exceed the operations that are left. -/
theorem take_of_layout {m : Machine} (h : Layout env m.stack keys sigs dummy rest) :
    take env m = if env.limits.maxOps < m.ops + keys.length then
        .error (.tooManyOps env.limits.maxOps)
      else .ok { keys, sigs, dummy, rest, ops := m.ops + keys.length } := by
  obtain ⟨keyCount, sigCount, hs, hkeys, hmax, hsigs, hle⟩ := h
  have hn : countAt env m.stack 1 = .ok keys.length := by
    apply countAt_of_counts _ hkeys
    simp [hs]
  have hk : countAt env m.stack (keys.length + 2) = .ok sigs.length := by
    apply countAt_of_counts _ hsigs
    simp [hs]
  have hcount : ¬((keys.length : Int) < 0 ∨
      (env.limits.maxKeysPerMultisig : Int) < keys.length) := by
    omega
  have hsigCount : ¬((sigs.length : Int) < 0 ∨ (keys.length : Int) < sigs.length) := by
    omega
  have hkeysAt : (m.stack.drop 1).take keys.length = keys := by
    simp [hs]
  have hdropKeys : m.stack.drop (keys.length + 2) = sigs ++ dummy :: rest := by
    have hsplit : m.stack = (keyCount :: keys ++ [sigCount]) ++ (sigs ++ dummy :: rest) := by
      simp [hs]
    rw [hsplit]
    exact List.drop_left' (by simp)
  have hsigsAt : (m.stack.drop (keys.length + 2)).take sigs.length = sigs := by
    simp [hdropKeys]
  have hdrop : m.stack.drop (keys.length + sigs.length + 2) = dummy :: rest := by
    rw [Nat.add_right_comm, ← List.drop_drop, hdropKeys, List.drop_left]
  unfold take
  simp only [hn, bind, Except.bind, hcount, if_false, Int.toNat_natCast]
  split
  · rfl
  · simp only [hk, hsigCount, if_false, Int.toNat_natCast, hdrop, hkeysAt, hsigsAt]
    rfl

theorem counts_of_countAt {s : Stack} {depth : Nat} {n : Int} (h : countAt env s depth = .ok n)
    (hn : 0 ≤ n) : ∃ item, s[depth - 1]? = some item ∧ Counts env item n.toNat := by
  unfold countAt at h
  split at h
  · next item hitem =>
    obtain ⟨value, hread, hclamp⟩ := bind_eq_ok.mp h
    refine ⟨item, hitem, value, hread, ?_⟩
    rw [pure_eq_ok.mp hclamp, Int.toNat_of_nonneg hn]
  · cases h

theorem layout_of_take {m : Machine} {ms : Multisig} (h : take env m = .ok ms) :
    Layout env m.stack ms.keys ms.sigs ms.dummy ms.rest ∧ ms.ops = m.ops + ms.keys.length ∧
      ms.ops ≤ env.limits.maxOps := by
  obtain ⟨keyCount, hkeys, h⟩ := bind_eq_ok.mp h
  split at h
  · cases h
  next hkeyCount =>
  dsimp only at h
  split at h
  · cases h
  next hops =>
  obtain ⟨sigCount, hsigs, h⟩ := bind_eq_ok.mp h
  split at h
  · cases h
  next hsigCount =>
  split at h
  case h_2 => cases h
  next dummy rest hdrop =>
  cases h
  obtain ⟨top, htop, hkeys⟩ := counts_of_countAt hkeys (by omega)
  obtain ⟨mid, hmid, hsigs⟩ := counts_of_countAt hsigs (by omega)
  have hkeysMax : keyCount.toNat ≤ env.limits.maxKeysPerMultisig := by omega
  have hsigsMax : sigCount.toNat ≤ keyCount.toNat := by omega
  generalize keyCount.toNat = n at *
  generalize sigCount.toNat = k at *
  cases hstack : m.stack with
  | nil => simp [hstack] at htop
  | cons first below =>
    rw [hstack] at htop hmid hdrop
    cases htop
    obtain ⟨hn, hmid⟩ := List.getElem?_eq_some_iff.mp (show below[n]? = some mid from hmid)
    have hbelow : below = below.take n ++ mid :: below.drop (n + 1) := by
      rw [← hmid, ← List.drop_eq_getElem_cons hn, List.take_append_drop]
    have hlower : below.drop (n + 1) = (below.drop (n + 1)).take k ++ dummy :: rest := by
      have htail : (below.drop (n + 1)).drop k = dummy :: rest := by
        rw [List.drop_drop, ← hdrop, show n + k + 2 = (n + 1 + k) + 1 by omega, List.drop_succ_cons]
      rw [← htail, List.take_append_drop]
    have hkeysLength : (below.take n).length = n := by
      rw [List.length_take]
      omega
    have hsigsLength : ((below.drop (n + 1)).take k).length = k := by
      have hlength := congrArg List.length hlower
      simp only [List.length_append, List.length_cons, List.length_take] at hlength ⊢
      omega
    show Layout env (top :: below) (below.take n) ((below.drop (n + 1)).take k) dummy rest ∧
      m.ops + n = m.ops + (below.take n).length ∧ m.ops + n ≤ env.limits.maxOps
    rw [hkeysLength]
    refine ⟨⟨top, mid, ?_, ?_, ?_, ?_, ?_⟩, rfl, Nat.not_lt.mp hops⟩
    · rw [← hlower, ← hbelow]
    · rwa [hkeysLength]
    · rwa [hkeysLength]
    · rwa [hsigsLength]
    · rwa [hsigsLength, hkeysLength]
end Multisig

/-- What is made of the verdict of a walk: a bad one may be refused for its signatures, any one
for the unused item. -/
def conclude (env : Env) (verify : Bool) (sigs : List Bytes) (dummy : Bytes) (verdict : Bool)
    (m : Machine) : Except Fault Machine :=
  if !verdict && env.flags.has .nullFail && sigs.any (· ≠ []) then .error .nullFailMulti
  else if env.flags.has .nullDummy && dummy ≠ [] then .error (.dummyNotEmpty dummy.length)
  else settle verify .checkMultisigVerifyFailed verdict m

theorem checkMultisig_of_layout {m : Machine} {dummy : Bytes} {rest : Stack}
    (h : Multisig.Layout env m.stack keys sigs dummy rest) (verify : Bool) :
    (checkMultisig env verify m).result =
      if env.limits.maxOps < m.ops + keys.length then .error (.tooManyOps env.limits.maxOps)
      else env.removeSignatures m.code sigs >>= fun code =>
        (matchKeys env code sigs keys).result >>= fun verdict =>
          conclude env verify sigs dummy verdict
            { m with stack := rest, ops := m.ops + keys.length } := by
  unfold checkMultisig
  rw [Run.result_bind, Run.result_ofExcept, Multisig.take_of_layout h]
  split
  · rfl
  · show (Run.ofExcept (env.removeSignatures m.code sigs) >>= _).result = _
    rw [Run.result_bind, Run.result_ofExcept]
    congr 1
    funext code
    rw [Run.result_bind]
    congr 1
    funext verdict
    simp only [Run.result_ite, conclude]
    rfl

theorem conclude_ok {verify verdict : Bool} {dummy : Bytes} {m m' : Machine}
    (h : conclude env verify sigs dummy verdict m = .ok m') :
    settle verify .checkMultisigVerifyFailed verdict m = .ok m' := by
  unfold conclude at h
  split at h
  · cases h
  · split at h
    · cases h
    · exact h

theorem conclude_error {verify verdict : Bool} {dummy : Bytes} {m : Machine} {fault : Fault}
    (h : conclude env verify sigs dummy verdict m = .error fault) :
    fault.code = .sigNullDummy ∨
      (fault.code = .nullFail ∨ fault.code = .checkMultisigVerify) ∧ verdict = false := by
  unfold conclude settle at h
  grind [Fault.code]

theorem checkMultisig_cases {m : Machine} {dummy : Bytes} {rest : Stack}
    (h : Multisig.Layout env m.stack keys sigs dummy rest) (verify : Bool) :
    (∃ fault, (checkMultisig env verify m).result = .error fault ∧
      (fault.code = .opCountExceeded ∨ fault.code = .sigFindAndDelete)) ∨
    ∃ code, env.removeSignatures m.code sigs = .ok code ∧
      ((∃ fault, (checkMultisig env verify m).result = .error fault ∧ fault.code ∈ encodingCodes ∧
        (matchKeys env code sigs keys).result = .error fault) ∨
      ∃ verdict, (verdict = true ↔ OrderedMatching (env.Verifies code) sigs keys) ∧
        (checkMultisig env verify m).result = conclude env verify sigs dummy verdict
          { m with stack := rest, ops := m.ops + keys.length }) := by
  rw [checkMultisig_of_layout h]
  by_cases hops : env.limits.maxOps < m.ops + keys.length
  · exact .inl ⟨_, if_pos hops, .inl rfl⟩
  · rw [if_neg hops]
    cases hcode : env.removeSignatures m.code sigs with
    | error fault =>
      refine .inl ⟨fault, rfl, .inr ?_⟩
      rw [Env.removeSignatures_error hcode]
      rfl
    | ok code =>
      refine .inr ⟨code, rfl, ?_⟩
      cases hwalk : (matchKeys env code sigs keys).result with
      | error fault =>
        refine .inl ⟨fault, ?_, matchKeys_error hwalk, rfl⟩
        simp only [bind, Except.bind, hwalk]
      | ok verdict =>
        refine .inr ⟨verdict, matchKeys_ok hwalk, ?_⟩
        simp only [bind, Except.bind, hwalk]

theorem checkMultisig_ok {m m' : Machine} {dummy : Bytes} {rest : Stack} {verify : Bool}
    (h : Multisig.Layout env m.stack keys sigs dummy rest)
    (hok : (checkMultisig env verify m).result = .ok m') :
    ∃ code verdict, env.removeSignatures m.code sigs = .ok code ∧
      (verdict = true ↔ OrderedMatching (env.Verifies code) sigs keys) ∧
      settle verify .checkMultisigVerifyFailed verdict
        { m with stack := rest, ops := m.ops + keys.length } = .ok m' := by
  rcases checkMultisig_cases h verify with ⟨fault, hfault, -⟩ | ⟨code, hcode, hend⟩
  · simp [hfault] at hok
  · rcases hend with ⟨fault, hfault, -⟩ | ⟨verdict, hverdict, hend⟩
    · simp [hfault] at hok
    · exact ⟨code, verdict, hcode, hverdict, conclude_ok (hend.symm.trans hok)⟩

/-- Each fault of a multisignature: the first two come before the walk, an encoding stops the
walk if a rule asks for one, the unused item does not depend on the verdict, and the others say
that it is bad. -/
theorem checkMultisig_error {m : Machine} {dummy : Bytes} {rest : Stack} {verify : Bool}
    {fault : Fault} (h : Multisig.Layout env m.stack keys sigs dummy rest)
    (hfault : (checkMultisig env verify m).result = .error fault) :
    fault.code = .opCountExceeded ∨ fault.code = .sigFindAndDelete ∨
    fault.code ∈ encodingCodes ∧ ¬env.AnyEncoding ∨ fault.code = .sigNullDummy ∨
    (fault.code = .nullFail ∨ fault.code = .checkMultisigVerify) ∧
      ∃ code, env.removeSignatures m.code sigs = .ok code ∧
        ¬OrderedMatching (env.Verifies code) sigs keys := by
  rcases checkMultisig_cases h verify with ⟨other, hother, hcodes⟩ | ⟨code, hcode, hend⟩
  · cases hother.symm.trans hfault
    exact hcodes.imp_right .inl
  · rcases hend with ⟨other, hother, hcodes, hwalk⟩ | ⟨verdict, hverdict, hend⟩
    · cases hother.symm.trans hfault
      refine .inr (.inr (.inl ⟨hcodes, fun hany => ?_⟩))
      obtain ⟨verdict, hok⟩ := matchKeys_total hany code sigs keys
      simp [hwalk] at hok
    · rcases conclude_error (hend.symm.trans hfault) with hdummy | ⟨hcodes, hbad⟩
      · exact .inr (.inr (.inr (.inl hdummy)))
      · have hnone : ¬OrderedMatching (env.Verifies code) sigs keys := fun hm => by
          simpa [hbad] using hverdict.mpr hm
        exact .inr (.inr (.inr (.inr ⟨hcodes, code, hcode, hnone⟩)))

/-- The walk decides the rule on ordered placements. Where it pushes true, or passes in the
verifying form, there is a placement of the signatures on the keys; where it pushes false, or
fails for the verdict, there is none. With every encoding admitted, nothing but the count of
operations and a signature in the script code comes before the verdict. -/
theorem checkMultisig_decides_orderedMatching {m : Machine} {dummy : Bytes} {rest : Stack}
    (h : Multisig.Layout env m.stack keys sigs dummy rest) :
    (∀ m', (checkMultisig env false m).result = .ok m' →
      ∃ code, env.removeSignatures m.code sigs = .ok code ∧
        (m'.stack = rest.pushBool true ∧ OrderedMatching (env.Verifies code) sigs keys ∨
          m'.stack = rest.pushBool false ∧ ¬OrderedMatching (env.Verifies code) sigs keys)) ∧
    (∀ m', (checkMultisig env true m).result = .ok m' →
      ∃ code, env.removeSignatures m.code sigs = .ok code ∧
        OrderedMatching (env.Verifies code) sigs keys) ∧
    (∀ verify fault, (checkMultisig env verify m).result = .error fault →
      fault.code = .nullFail ∨ fault.code = .checkMultisigVerify →
      ∃ code, env.removeSignatures m.code sigs = .ok code ∧
        ¬OrderedMatching (env.Verifies code) sigs keys) ∧
    (env.AnyEncoding → ∀ verify,
      (∀ fault, (checkMultisig env verify m).result = .error fault → fault.code ∉ encodingCodes) ∧
      (m.ops + keys.length ≤ env.limits.maxOps → ∀ code,
        env.removeSignatures m.code sigs = .ok code →
        ∃ verdict, (verdict = true ↔ OrderedMatching (env.Verifies code) sigs keys) ∧
          (checkMultisig env verify m).result = conclude env verify sigs dummy verdict
            { m with stack := rest, ops := m.ops + keys.length })) := by
  refine ⟨?_, ?_, ?_, ?_⟩
  · intro m' hok
    obtain ⟨code, verdict, hcode, hverdict, hsettle⟩ := checkMultisig_ok h hok
    refine ⟨code, hcode, ?_⟩
    simp only [settle, Bool.false_eq_true, ↓reduceIte, Except.ok.injEq] at hsettle
    subst hsettle
    cases verdict with
    | true => exact .inl ⟨rfl, hverdict.mp rfl⟩
    | false => exact .inr ⟨rfl, fun hm => by simpa using hverdict.mpr hm⟩
  · intro m' hok
    obtain ⟨code, verdict, hcode, hverdict, hsettle⟩ := checkMultisig_ok h hok
    refine ⟨code, hcode, hverdict.mp ?_⟩
    cases verdict with
    | true => rfl
    | false => simp [settle] at hsettle
  · intro verify fault hfault hcause
    have herror := checkMultisig_error h hfault
    rcases hcause with hcause | hcause <;> simpa [hcause, encodingCodes] using herror
  · intro hany verify
    constructor
    · intro fault hfault hcodes
      rcases checkMultisig_error h hfault with hc | hc | ⟨-, hc⟩ | hc | ⟨hc | hc, -⟩
      case inr.inr.inl => exact hc hany
      all_goals simp [hc, encodingCodes] at hcodes
    · intro hops code hcode
      obtain ⟨verdict, hwalk⟩ := matchKeys_total hany code sigs keys
      refine ⟨verdict, matchKeys_ok hwalk, ?_⟩
      rw [checkMultisig_of_layout h, if_neg (Nat.not_lt.mpr hops), hcode]
      simp only [bind, Except.bind, hwalk]

/-- A context in which a signature is good for the one key it equals. -/
def echoContext : TxContext where
  lockTime := 0
  version := 2
  sequence := 0
  signatureHash := fun _ _ _ => []
  checkSignature := fun sig key _ _ => sig == key

/-- The first and the third of three keys have signed. -/
theorem checkMultisig_decides_two_of_three :
    let env : Env := { flags := Flags.empty, context := some echoContext, script := [] }
    let m : Machine := { stack := [[3], [30], [20], [10], [2], [30], [10], [], [7]], code := [] }
    Multisig.Layout env m.stack [[30], [20], [10]] [[30], [10]] [] [[7]] ∧
    (checkMultisig env false m).result = .ok { m with stack := [[1], [7]], ops := 3 } ∧
    OrderedMatching (env.Verifies []) [[30], [10]] [[30], [20], [10]] := by
  intro env m
  have hlayout : Multisig.Layout env m.stack [[30], [20], [10]] [[30], [10]] [] [[7]] :=
    ⟨[3], [2], rfl, ⟨3, by decide +kernel, by decide⟩, by decide,
      ⟨2, by decide +kernel, by decide⟩, by decide⟩
  have hok : (checkMultisig env false m).result = .ok { m with stack := [[1], [7]], ops := 3 } := by
    decide +kernel
  refine ⟨hlayout, hok, ?_⟩
  obtain ⟨code, hcode, hstack⟩ := (checkMultisig_decides_orderedMatching hlayout).1 _ hok
  have hempty : env.removeSignatures m.code [[30], [10]] = .ok [] := by
    decide +kernel
  cases hempty.symm.trans hcode
  rcases hstack with ⟨-, hmatching⟩ | ⟨hfalse, -⟩
  · exact hmatching
  · exact absurd hfalse (by decide)

end Machine

end CoinScript
