import CoinScript.Proofs.Multisig
import CoinScript.Proofs.Removal
import CoinScript.Proofs.StackEffect

/-! # A multisignature on the stack as it stands

Once its two counts are known, a multisignature can be checked without taking lists off the
stack. Signatures and keys are looked at where they lie, by the number of items above them; in
the end all operands are dropped one by one, and a countdown that starts with the key count and
ends at the signature count tells which of them are signatures. This is the same run as the one
over lists. So no item is looked for that is not there, no more keys are used up than there are,
and a signature that is refused for not being empty is a signature.
-/
namespace CoinScript

namespace Stack

variable {s : Stack} {depth : Nat} {item : Bytes} {items : List Bytes}

theorem peek_head (h : item :: items <+: s.drop depth) : s.peek (-depth - 1) = .ok item := by
  obtain ⟨below, hbelow⟩ := h
  rw [peek_below_eq_ok_iff, ← Nat.add_zero depth, ← List.getElem?_drop, ← hbelow]
  rfl

theorem prefix_drop_succ (h : item :: items <+: s.drop depth) : items <+: s.drop (depth + 1) := by
  obtain ⟨below, hbelow⟩ := h
  rw [← List.drop_drop, ← hbelow]
  exact List.prefix_append items below

end Stack

def Run.FailsWith {α : Type} (run : Run α) (code : FaultCode) : Prop :=
  ∃ fault, run.result = .error fault ∧ fault.code = code

namespace Machine

namespace Multisig

/-- Removes `count` signatures from script code, the first of which lies below `depth` items. -/
def removeInPlace (env : Env) (s : Stack) : Nat → Nat → Script → Except Fault Script
  | 0, _, code => .ok code
  | count + 1, depth, code => do
    let sig ← s.peek (-depth - 1)
    let kept ← env.removeSignature code sig
    removeInPlace env s count (depth + 1) kept

/-- How a walk over the stack stands: what lies above the next signature and above the next key,
how many of either are left, and whether these can still match. -/
structure Walk where
  sigDepth : Nat
  keyDepth : Nat
  sigsLeft : Nat
  keysLeft : Int
  possible : Bool

namespace Walk

/-- On top lie the count of keys and the keys, then the count of signatures and the signatures. -/
def start (keyCount sigCount : Nat) : Walk where
  sigDepth := keyCount + 2
  keyDepth := 1
  sigsLeft := sigCount
  keysLeft := keyCount
  possible := true

def active (w : Walk) : Bool := w.possible && 0 < w.sigsLeft

/-- A key is used up, and with it a signature that is good for it. -/
def next (w : Walk) (good : Bool) : Walk :=
  let sigsLeft := if good then w.sigsLeft - 1 else w.sigsLeft
  { sigDepth := if good then w.sigDepth + 1 else w.sigDepth
    keyDepth := w.keyDepth + 1
    sigsLeft
    keysLeft := w.keysLeft - 1
    possible := sigsLeft ≤ w.keysLeft - 1 }

theorem keysLeft_pos_of_next {w : Walk} {good : Bool} (h : (w.next good).possible = true) :
    0 < w.keysLeft := by
  have hle := of_decide_eq_true h
  omega

def run (env : Env) (code : Script) (s : Stack) (w : Walk) : Run Bool :=
  if hactive : w.active then do
    let sig ← Run.ofExcept (s.peek (-w.sigDepth - 1))
    let key ← Run.ofExcept (s.peek (-w.keyDepth - 1))
    let good ← env.checkSig sig key code
    run env code s (w.next good)
  else return w.possible
termination_by if w.possible then w.keysLeft.toNat + 1 else 0
decreasing_by
  have hpossible : w.possible = true := Bool.and_elim_left hactive
  rw [if_pos hpossible]
  split
  · next hnext =>
    have hpos := keysLeft_pos_of_next hnext
    simp only [next]
    omega
  · omega

/-- The states that a walk may pass through, whatever the verdicts on its signatures. -/
inductive Reaches (first : Walk) : Walk → Prop
  | first : Reaches first first
  | next {w : Walk} (good : Bool) : Reaches first w → w.active = true → Reaches first (w.next good)

end Walk

/-- Refuses a signature on top of the stack for not being empty. Only when the countdown has run
out is the item on top a signature. -/
def refuseTop (env : Env) (verdict : Bool) (countdown : Nat) (s : Stack) : Except Fault Unit :=
  if !verdict && env.flags.has .nullFail && countdown = 0 then do
    let top ← s.peek (-1)
    if top ≠ [] then .error .nullFailMulti else .ok ()
  else .ok ()

def clear (env : Env) (verdict : Bool) : Nat → Nat → Stack → Except Fault Stack
  | 0, _, s => .ok s
  | count + 1, countdown, s => do
    refuseTop env verdict countdown s
    let rest ← s.dropTop
    clear env verdict count (countdown - 1) rest

def inPlace (env : Env) (verify : Bool) (keyCount sigCount : Nat) (m : Machine) : Run Machine := do
  let code ← Run.ofExcept (removeInPlace env m.stack sigCount (keyCount + 2) m.code)
  let verdict ← (Walk.start keyCount sigCount).run env code m.stack
  let left ← Run.ofExcept (clear env verdict (keyCount + sigCount + 2) (keyCount + 2) m.stack)
  let (dummy, rest) ← Run.ofExcept left.pop
  if env.flags.has .nullDummy && dummy ≠ [] then Run.fail (.dummyNotEmpty dummy.length)
  else
    Run.ofExcept (settle verify .checkMultisigVerifyFailed verdict
      { m with stack := rest, ops := m.ops + keyCount })

variable {env : Env} {code : Script} {s : Stack} {keys sigs : List Bytes}

theorem removeInPlace_eq {depth : Nat} (h : sigs <+: s.drop depth) :
    removeInPlace env s sigs.length depth code = env.removeSignatures code sigs := by
  induction sigs generalizing depth code with
  | nil => rfl
  | cons sig sigs ih =>
    rw [List.length_cons, removeInPlace, Stack.peek_head h, Env.removeSignatures_cons]
    show (env.removeSignature code sig >>= _) = _
    apply bind_congr
    intro kept
    exact ih (Stack.prefix_drop_succ h)

namespace Walk

variable {w first : Walk} {sig key : Bytes}

/-- The signatures and keys that are left lie where the walk looks for them. -/
structure Stands (s : Stack) (w : Walk) (sigs keys : List Bytes) : Prop where
  sigsAt : sigs <+: s.drop w.sigDepth
  keysAt : keys <+: s.drop w.keyDepth
  sigsLeft : w.sigsLeft = sigs.length
  keysLeft : w.keysLeft = keys.length
  possible : w.possible = decide (sigs.length ≤ keys.length)

theorem Stands.next (h : Stands s w (sig :: sigs) (key :: keys)) (good : Bool) :
    Stands s (w.next good) (if good then sigs else sig :: sigs) keys := by
  have hsigs := h.sigsLeft
  have hkeys := h.keysLeft
  rw [List.length_cons] at hsigs hkeys
  have hleft : (w.next good).sigsLeft = (if good then sigs else sig :: sigs).length := by
    cases good <;> simp [Walk.next, hsigs]
  have hkeysLeft : w.keysLeft - 1 = keys.length := by omega
  refine ⟨?_, Stack.prefix_drop_succ h.keysAt, hleft, hkeysLeft, ?_⟩
  · cases good with
    | true => exact Stack.prefix_drop_succ h.sigsAt
    | false => exact h.sigsAt
  · show decide (((w.next good).sigsLeft : Int) ≤ w.keysLeft - 1) = _
    rw [hleft, hkeysLeft]
    simp only [Int.ofNat_le]

theorem Stands.exists_cons (h : Stands s w sigs keys) (hactive : w.active = true) :
    ∃ sig sigs' key keys', sigs = sig :: sigs' ∧ keys = key :: keys' := by
  rw [active, Bool.and_eq_true, h.possible, h.sigsLeft, decide_eq_true_eq,
    decide_eq_true_eq] at hactive
  obtain ⟨hle, hpos⟩ := hactive
  obtain ⟨sig, sigs', hsigs⟩ := List.exists_cons_of_length_pos hpos
  obtain ⟨key, keys', hkeys⟩ := List.exists_cons_of_length_pos (Nat.lt_of_lt_of_le hpos hle)
  exact ⟨sig, sigs', key, keys', hsigs, hkeys⟩

theorem Reaches.stands (h : first.Reaches w) (hfirst : Stands s first sigs keys) :
    ∃ sigs' keys', sigs' <:+ sigs ∧ keys' <:+ keys ∧ Stands s w sigs' keys' := by
  induction h with
  | first => exact ⟨sigs, keys, List.suffix_rfl, List.suffix_rfl, hfirst⟩
  | next good _ hactive ih =>
    obtain ⟨left, rest, hleft, hrest, hstands⟩ := ih
    obtain ⟨sig, left, key, rest, rfl, rfl⟩ := hstands.exists_cons hactive
    refine ⟨_, rest, ?_, (List.suffix_cons key rest).trans hrest, hstands.next good⟩
    cases good with
    | true => exact (List.suffix_cons sig left).trans hleft
    | false => exact hleft

theorem run_of_not_active (h : w.active = false) : w.run env code s = pure w.possible := by
  rw [run]
  simp [h]

theorem Stands.run_done (h : Stands s w [] keys) : w.run env code s = pure true := by
  have hpossible : w.possible = true := h.possible.trans (by simp)
  rw [run_of_not_active (by simp [active, h.sigsLeft]), hpossible]

theorem Stands.run_short (h : Stands s w sigs keys) (hshort : keys.length < sigs.length) :
    w.run env code s = pure false := by
  have hpossible : w.possible = false := h.possible.trans (by simpa using hshort)
  rw [run_of_not_active (by simp [active, hpossible]), hpossible]

theorem Stands.run_eq (h : Stands s w sigs keys) (hle : sigs.length ≤ keys.length) :
    w.run env code s = matchKeys env code sigs keys := by
  induction keys generalizing w sigs with
  | nil =>
    obtain rfl := List.length_eq_zero_iff.mp (Nat.le_zero.mp hle)
    exact h.run_done
  | cons key keys ih =>
    cases sigs with
    | nil => exact h.run_done
    | cons sig sigs =>
      have hactive : w.active = true := by
        rw [active, h.possible, decide_eq_true hle, h.sigsLeft]
        simp
      rw [run, dif_pos hactive, Stack.peek_head h.sigsAt, Stack.peek_head h.keysAt,
        Run.ofExcept_ok_bind, Run.ofExcept_ok_bind, matchKeys]
      apply bind_congr
      intro good
      -- The walk over the lists looks at the lengths before it goes on, the other one after.
      have hnext := h.next good
      generalize (if good = true then sigs else sig :: sigs) = left at hnext ⊢
      by_cases hshort : keys.length < left.length
      · rw [if_pos hshort]
        exact hnext.run_short hshort
      · rw [if_neg hshort]
        exact ih hnext (Nat.not_lt.mp hshort)

end Walk

theorem refuseTop_cons {verdict : Bool} (countdown : Nat) (item : Bytes) (s : Stack) :
    refuseTop env verdict countdown (item :: s) =
      if !verdict && env.flags.has .nullFail && countdown = 0 && item ≠ [] then
        .error .nullFailMulti
      else .ok () := by
  rw [refuseTop, Stack.peek_top]
  cases !verdict && env.flags.has .nullFail && decide (countdown = 0) with
  | false => rfl
  | true => by_cases hitem : item = [] <;> simp [hitem, bind, Except.bind]

theorem clear_cons {verdict : Bool} (count countdown : Nat) (item : Bytes) (s : Stack) :
    clear env verdict (count + 1) countdown (item :: s) =
      if !verdict && env.flags.has .nullFail && countdown = 0 && item ≠ [] then
        .error .nullFailMulti
      else clear env verdict count (countdown - 1) s := by
  rw [clear, refuseTop_cons]
  split <;> rfl

theorem clear_countdown {verdict : Bool} (front : List Bytes) (count : Nat) (s : Stack) :
    clear env verdict (front.length + count) front.length (front ++ s) =
      clear env verdict count 0 s := by
  induction front with
  | nil => simp
  | cons item front ih =>
    rw [List.length_cons, Nat.succ_add, List.cons_append, clear_cons]
    simpa using ih

theorem clear_signatures {verdict : Bool} (sigs : List Bytes) (s : Stack) :
    clear env verdict sigs.length 0 (sigs ++ s) =
      if !verdict && env.flags.has .nullFail && sigs.any (· ≠ []) then .error .nullFailMulti
      else .ok s := by
  induction sigs with
  | nil => simp [clear]
  | cons sig sigs ih =>
    rw [List.length_cons, List.cons_append, clear_cons, ih]
    cases !verdict && env.flags.has .nullFail with
    | false => simp
    | true => by_cases hsig : sig = [] <;> simp [hsig]

theorem operands_eq (keyCount sigCount : Bytes) (below : Stack) :
    keyCount :: (keys ++ sigCount :: below) = (keyCount :: keys ++ [sigCount]) ++ below := by
  simp

theorem clear_operands {verdict : Bool} {keyCount sigCount : Bytes} {below : Stack} :
    clear env verdict (keys.length + sigs.length + 2) (keys.length + 2)
        (keyCount :: (keys ++ sigCount :: (sigs ++ below))) =
      if !verdict && env.flags.has .nullFail && sigs.any (· ≠ []) then .error .nullFailMulti
      else .ok below := by
  have hfront : (keyCount :: keys ++ [sigCount]).length = keys.length + 2 := by simp
  rw [Nat.add_right_comm, ← hfront, operands_eq, clear_countdown, clear_signatures]

theorem Layout.stands {dummy : Bytes} {rest : Stack} (h : Layout env s keys sigs dummy rest) :
    Walk.Stands s (Walk.start keys.length sigs.length) sigs keys := by
  obtain ⟨keyCount, sigCount, rfl, -, -, -, hle⟩ := h
  refine ⟨?_, ?_, rfl, rfl, (decide_eq_true hle).symm⟩
  · show sigs <+: List.drop (keys.length + 2) _
    rw [operands_eq, List.drop_left' (by simp)]
    exact List.prefix_append sigs _
  · exact List.prefix_append keys _

theorem Layout.checkMultisig_eq_inPlace {m : Machine} {dummy : Bytes} {rest : Stack}
    (h : Layout env m.stack keys sigs dummy rest)
    (hops : m.ops + keys.length ≤ env.limits.maxOps) (verify : Bool) :
    checkMultisig env verify m = inPlace env verify keys.length sigs.length m := by
  have hstands := h.stands
  have hremove : removeInPlace env m.stack sigs.length (keys.length + 2) m.code =
      env.removeSignatures m.code sigs := removeInPlace_eq hstands.sigsAt
  rw [checkMultisig, take_of_layout h, if_neg (Nat.not_lt.mpr hops), Run.ofExcept_ok_bind, inPlace,
    hremove]
  apply bind_congr
  intro code
  obtain ⟨keyCount, sigCount, hstack, -, -, -, hle⟩ := h
  rw [hstands.run_eq hle]
  apply bind_congr
  intro verdict
  rw [hstack, clear_operands]
  split
  · rfl
  · rfl

end Multisig

variable {env : Env} {keys sigs : List Bytes} {m : Machine} {dummy : Bytes} {rest : Stack}

/-- The stack holds the operands that it is found to hold, so nothing is missing later. -/
theorem checkMultisig_not_underflow (h : Multisig.Layout env m.stack keys sigs dummy rest)
    (verify : Bool) : ¬(checkMultisig env verify m).FailsWith .underflow := by
  rintro ⟨fault, hfault, hcode⟩
  rcases checkMultisig_error h hfault with hc | hc | ⟨hc, -⟩ | hc | ⟨hc | hc, -⟩
  all_goals simp [hcode, encodingCodes] at hc

/-- Neither a signature in the script code nor an encoding stops the walk. -/
def Admitted (env : Env) (verify : Bool) (m : Machine) : Prop :=
  ∀ code ∈ FaultCode.sigFindAndDelete :: encodingCodes,
    ¬(checkMultisig env verify m).FailsWith code

theorem Admitted.concludes {verify : Bool} (hadmitted : Admitted env verify m)
    (h : Multisig.Layout env m.stack keys sigs dummy rest)
    (hops : m.ops + keys.length ≤ env.limits.maxOps) :
    ∃ code verdict, env.removeSignatures m.code sigs = .ok code ∧
      (verdict = true ↔ OrderedMatching (env.Verifies code) sigs keys) ∧
      (checkMultisig env verify m).result = conclude env verify sigs dummy verdict
        { m with stack := rest, ops := m.ops + keys.length } := by
  have hresult := checkMultisig_of_layout h verify
  rw [if_neg (Nat.not_lt.mpr hops)] at hresult
  cases hcode : env.removeSignatures m.code sigs with
  | error fault =>
    rw [hcode] at hresult
    have hfound : fault = .signatureInCode := Env.removeSignatures_error hcode
    exact absurd ⟨fault, hresult, by rw [hfound]; rfl⟩ (hadmitted _ List.mem_cons_self)
  | ok code =>
    cases hwalk : (matchKeys env code sigs keys).result with
    | error fault =>
      have hencoding := matchKeys_error hwalk
      simp only [hcode, bind, Except.bind, hwalk] at hresult
      exact absurd ⟨fault, hresult, rfl⟩ (hadmitted _ (List.mem_cons_of_mem _ hencoding))
    | ok verdict =>
      simp only [hcode, bind, Except.bind, hwalk] at hresult
      exact ⟨code, verdict, rfl, matchKeys_ok hwalk, hresult⟩

section Conclusion

variable {verify verdict : Bool}

theorem settle_ok {fault : Fault} {m' : Machine} (h : settle verify fault verdict m = .ok m') :
    m' = { m with stack := if verify then m.stack else m.stack.pushBool verdict } := by
  cases verify with
  | false =>
    cases h
    rfl
  | true =>
    cases verdict with
    | false => cases h
    | true =>
      cases h
      rfl

theorem refused_iff : (!verdict && env.flags.has .nullFail && sigs.any (· ≠ [])) = true ↔
    verdict = false ∧ env.flags.has .nullFail = true ∧ ∃ sig ∈ sigs, sig ≠ [] := by
  simp [and_assoc]

theorem conclude_nullFail_iff :
    (∃ fault, conclude env verify sigs dummy verdict m = .error fault ∧ fault.code = .nullFail) ↔
      verdict = false ∧ env.flags.has .nullFail = true ∧ ∃ sig ∈ sigs, sig ≠ [] := by
  rw [← refused_iff]
  unfold conclude settle
  grind [Fault.code]

theorem conclude_sigNullDummy_iff :
    (∃ fault, conclude env verify sigs dummy verdict m = .error fault ∧
      fault.code = .sigNullDummy) ↔
      ¬(verdict = false ∧ env.flags.has .nullFail = true ∧ ∃ sig ∈ sigs, sig ≠ []) ∧
        env.flags.has .nullDummy = true ∧ dummy ≠ [] := by
  rw [← refused_iff]
  unfold conclude settle
  grind [Fault.code]

end Conclusion

/-- A multisignature takes exactly its operands off the stack: it runs as it does in place, where
no item is missed and no key is used up that is not there, and what it leaves is the stack below
them, with the verdict unless it verifies. If its signatures are admitted, it is refused for a
signature exactly when they do not match, the rule is in force and one of them is not empty, and
otherwise for the unused item exactly when that rule is in force and the item is not empty. -/
theorem checkMultisig_takes_its_operands (h : Multisig.Layout env m.stack keys sigs dummy rest)
    (hops : m.ops + keys.length ≤ env.limits.maxOps) (verify : Bool) :
    checkMultisig env verify m = Multisig.inPlace env verify keys.length sigs.length m ∧
    ¬(checkMultisig env verify m).FailsWith .underflow ∧
    (∀ w, (Multisig.Walk.start keys.length sigs.length).Reaches w → 0 ≤ w.keysLeft ∧
      (w.active = true → ∃ sig ∈ sigs, ∃ key ∈ keys,
        m.stack.peek (-w.sigDepth - 1) = .ok sig ∧ m.stack.peek (-w.keyDepth - 1) = .ok key)) ∧
    (∀ m', (checkMultisig env verify m).result = .ok m' → ∃ verdict, m' = { m with
      stack := if verify then rest else rest.pushBool verdict, ops := m.ops + keys.length }) ∧
    (Admitted env verify m → ∃ code, env.removeSignatures m.code sigs = .ok code ∧
      ((checkMultisig env verify m).FailsWith .nullFail ↔
        ¬OrderedMatching (env.Verifies code) sigs keys ∧ env.flags.has .nullFail = true ∧
          ∃ sig ∈ sigs, sig ≠ []) ∧
      ((checkMultisig env verify m).FailsWith .sigNullDummy ↔
        ¬(checkMultisig env verify m).FailsWith .nullFail ∧
          env.flags.has .nullDummy = true ∧ dummy ≠ [])) := by
  refine ⟨h.checkMultisig_eq_inPlace hops verify, checkMultisig_not_underflow h verify, ?_, ?_, ?_⟩
  · intro w hw
    obtain ⟨left, remaining, hleft, hremaining, hstands⟩ := hw.stands h.stands
    refine ⟨by rw [hstands.keysLeft]; omega, fun hactive => ?_⟩
    obtain ⟨sig, _, key, _, rfl, rfl⟩ := hstands.exists_cons hactive
    exact ⟨sig, hleft.subset List.mem_cons_self, key, hremaining.subset List.mem_cons_self,
      Stack.peek_head hstands.sigsAt, Stack.peek_head hstands.keysAt⟩
  · intro m' hok
    obtain ⟨code, verdict, -, -, hsettle⟩ := checkMultisig_ok h hok
    exact ⟨verdict, settle_ok hsettle⟩
  · intro hadmitted
    obtain ⟨code, verdict, hcode, hverdict, hresult⟩ := hadmitted.concludes h hops
    have hbad : ¬OrderedMatching (env.Verifies code) sigs keys ↔ verdict = false := by
      rw [← hverdict, Bool.not_eq_true]
    have hnull : (checkMultisig env verify m).FailsWith .nullFail ↔
        verdict = false ∧ env.flags.has .nullFail = true ∧ ∃ sig ∈ sigs, sig ≠ [] := by
      rw [Run.FailsWith, hresult]
      exact conclude_nullFail_iff
    refine ⟨code, hcode, ?_, ?_⟩
    · rw [hnull, hbad]
    · rw [hnull, Run.FailsWith, hresult]
      exact conclude_sigNullDummy_iff

/-- One signature for two keys, good for neither, above an unused item that is not empty. -/
theorem checkMultisig_takes_its_operands_refused :
    let env : Env :=
      { flags := Flags.ofRules [.nullFail, .nullDummy], context := some echoContext, script := [] }
    let m : Machine := { stack := [[2], [20], [10], [1], [30], [9], [7]], code := [] }
    Multisig.Layout env m.stack [[20], [10]] [[30]] [9] [[7]] ∧ m.ops + 2 ≤ env.limits.maxOps ∧
    Admitted env false m ∧ (checkMultisig env false m).FailsWith .nullFail ∧
    ¬(checkMultisig env false m).FailsWith .sigNullDummy ∧
    ¬OrderedMatching (env.Verifies []) [[30]] [[20], [10]] := by
  intro env m
  have hlayout : Multisig.Layout env m.stack [[20], [10]] [[30]] [9] [[7]] :=
    ⟨[2], [1], rfl, ⟨2, by decide +kernel, by decide⟩, by decide,
      ⟨1, by decide +kernel, by decide⟩, by decide⟩
  have hops : m.ops + 2 ≤ env.limits.maxOps := by decide
  have hcode : env.removeSignatures m.code [[30]] = .ok [] := by decide +kernel
  have hwalk : (matchKeys env [] [[30]] [[20], [10]]).result = .ok false := by decide +kernel
  have hresult : (checkMultisig env false m).result = .error .nullFailMulti := by
    rw [checkMultisig_of_layout hlayout, if_neg (by decide), hcode]
    simp only [bind, Except.bind, hwalk]
    exact if_pos (by decide)
  have hadmitted : Admitted env false m := by
    rintro code hmem ⟨fault, hfault, rfl⟩
    cases hresult.symm.trans hfault
    exact absurd hmem (by decide)
  have hnull : (checkMultisig env false m).FailsWith .nullFail := ⟨_, hresult, rfl⟩
  obtain ⟨-, -, -, -, hfaults⟩ := checkMultisig_takes_its_operands hlayout hops false
  obtain ⟨code, hremoved, hnullFail, hnullDummy⟩ := hfaults hadmitted
  cases hcode.symm.trans hremoved
  exact ⟨hlayout, hops, hadmitted, hnull, fun hdummy => (hnullDummy.mp hdummy).1 hnull,
    (hnullFail.mp hnull).1⟩

end Machine

end CoinScript
