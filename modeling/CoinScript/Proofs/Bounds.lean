import CoinScript.Proofs.Bookkeeping
import CoinScript.Proofs.NumberWidth
import CoinScript.Proofs.SoftFork
import CoinScript.Proofs.StackEffect
import CoinScript.Proofs.StaticValidity

/-! # Bounds that every run keeps

No operation makes an item that is longer than what a script may push, provided that digests
and arithmetic results are short enough for that. So the sizes of all items stay bounded along
a run, as do the height of the stacks and the count of operations, which is the number of
counted opcodes and of the keys of multisignatures. All executions of a spend start on items
of bounded size.
-/
namespace CoinScript

/-- Digests and arithmetic results are short enough to be pushed, and the height of a stack is a
count of 64 bits, as limits are. -/
structure Limits.Roomy (limits : Limits) : Prop where
  digest : 32 ≤ limits.maxElementSize
  number : limits.maxNumSize < limits.maxElementSize
  height : limits.maxStackSize ≤ maxCount

theorem Limits.roomy_default : Limits.Roomy {} := ⟨by decide, by decide, by decide⟩

/-- Every item has at most `limit` bytes. -/
def Stack.Fits (limit : Nat) (s : Stack) : Prop := ∀ item ∈ s, item.length ≤ limit

section Items

variable {limit : Nat} {s t : Stack} {item : Bytes}

namespace Stack

@[simp] theorem fits_nil : Fits limit [] := by simp [Fits]

@[simp] theorem fits_cons : Fits limit (item :: s) ↔ item.length ≤ limit ∧ Fits limit s := by
  simp [Fits]

@[simp] theorem fits_append : Fits limit (s ++ t) ↔ Fits limit s ∧ Fits limit t := by
  simp only [Fits, List.forall_mem_append]

end Stack

theorem Bytes.length_ofBool_le (b : Bool) : (Bytes.ofBool b).length ≤ 1 := by
  cases b <;> decide

/-- A number as large as a bound on lengths is written within that bound. -/
theorem Number.length_encode_length_le {n : Nat} (hn : n ≤ limit) (hlimit : 1 ≤ limit) :
    (encode n).length ≤ limit := by
  have hlarge : limit < 128 ^ limit := Nat.lt_pow_self (by omega)
  have htwo : 2 ≤ 2 ^ limit := by
    calc 2 = 2 ^ 1 := rfl
      _ ≤ 2 ^ limit := Nat.pow_le_pow_right (by omega) hlimit
  rw [length_encode_le_iff, Int.natAbs_natCast]
  calc 2 * n ≤ 2 * limit := Nat.mul_le_mul_left 2 hn
    _ < 2 * 128 ^ limit := by omega
    _ ≤ 2 ^ limit * 128 ^ limit := Nat.mul_le_mul_right _ htwo
    _ = 256 ^ limit := by rw [← Nat.mul_pow]

theorem Number.length_encode_height_le {n : Nat} (hn : n ≤ Limits.maxCount) :
    (encode n).length ≤ 32 := by
  rw [length_encode_le_iff, Int.natAbs_natCast]
  unfold Limits.maxCount at hn
  omega

theorem HashOp.length_eval_le (digests : Digests) (op : HashOp) (item : Bytes) :
    (op.eval digests item).length ≤ 32 := by
  cases op <;> simp [eval, Digests.length_ripemd160, Digests.length_sha1, Digests.length_sha256,
    Digests.length_hash160, Digests.length_sha256d]

theorem StackOp.Effect.fits {digests : Digests} {op : StackOp} {taken given : List Bytes}
    (h : op.Effect digests taken given) (hlimit : 32 ≤ limit)
    (htaken : Stack.Fits limit taken) : Stack.Fits limit given := by
  cases h with
  | verify | drop | dropPair | equalVerify => exact Stack.fits_nil
  | dup => exact Stack.fits_append.mpr ⟨htaken, htaken⟩
  | copyOver | rot | swap | nip | tuck => simp_all
  | ifDup => split <;> simp_all
  | @size top =>
    have htop : top.length ≤ limit := by simpa using htaken
    have hlength := Number.length_encode_length_le htop (by omega)
    simp [hlength, htop]
  | @equal top below =>
    have hbool := Bytes.length_ofBool_le (top == below)
    simp only [Stack.fits_cons, Stack.fits_nil, and_true]
    omega
  | @hash op top =>
    have hdigest := op.length_eval_le digests top
    simp only [Stack.fits_cons, Stack.fits_nil, and_true]
    omega

theorem NumberOp.Effect.fits {format : Number.Format} {op : NumberOp} {taken given : List Bytes}
    (h : op.Effect format taken given) (hlimit : format.limit < limit)
    (htaken : Stack.Fits limit taken) : Stack.Fits limit given := by
  have hbool (b : Bool) : Stack.Fits limit [Bytes.ofBool b] := by
    have hlength := Bytes.length_ofBool_le b
    simp only [Stack.fits_cons, Stack.fits_nil, and_true]
    omega
  cases h with
  | @unary op x a hx =>
    have hresult := Number.length_encode_unary_le op (Number.natAbs_read_lt hx)
    simp only [Stack.fits_cons, Stack.fits_nil, and_true]
    omega
  | @binary op x y a b hx hy =>
    have hresult := Number.length_encode_binary_le op (Number.natAbs_read_lt hx)
      (Number.natAbs_read_lt hy)
    simp only [Stack.fits_cons, Stack.fits_nil, and_true]
    omega
  | unaryTest | binaryTest | within => exact hbool _
  | equalVerify => exact Stack.fits_nil
  | pick | roll => simp_all

theorem ActsBy.fits {run : Stack → Except Fault Stack} {effect : List Bytes → List Bytes → Prop}
    (hrun : ActsBy run effect)
    (heffect : ∀ taken given, effect taken given → Stack.Fits limit taken → Stack.Fits limit given)
    (h : run s = .ok t) (hs : s.Fits limit) : t.Fits limit := by
  obtain ⟨taken, given, rest, hgiven, rfl, rfl⟩ := (hrun s t).mp h
  rw [Stack.fits_append] at hs ⊢
  exact ⟨heffect taken given hgiven hs.1, hs.2⟩

theorem StackOp.run_fits {digests : Digests} {op : StackOp} (h : op.run digests s = .ok t)
    (hlimit : 32 ≤ limit) (hheight : t.length ≤ Limits.maxCount) (hs : s.Fits limit) :
    t.Fits limit := by
  by_cases hop : op = .depth
  · subst hop
    cases h
    have hlength : s.length ≤ Limits.maxCount := Nat.le_of_succ_le hheight
    have hpushed := Number.length_encode_height_le hlength
    exact Stack.fits_cons.mpr ⟨by omega, hs⟩
  · exact (run_actsBy hop).fits (fun _ _ heffect => heffect.fits hlimit) h hs

theorem NumberOp.run_fits {format : Number.Format} {op : NumberOp} (h : op.run format s = .ok t)
    (hlimit : format.limit < limit) (hs : s.Fits limit) : t.Fits limit :=
  (run_actsBy format op).fits (fun _ _ heffect => heffect.fits hlimit) h hs

end Items

theorem Operation.natAbs_constant_le {opcode : UInt8} {n : Int}
    (h : ofOpcode opcode = .constant n) : n.natAbs ≤ 16 := by
  unfold ofOpcode at h
  split at h <;> cases h <;> decide

namespace Machine

variable {env : Env} {m m' : Machine} {here : Located} {xs : List Located} {limit : Nat}

section Items

/-- Every item of both stacks has at most `limit` bytes. -/
structure ItemsFit (limit : Nat) (m : Machine) : Prop where
  stack : m.stack.Fits limit
  alt : m.alt.Fits limit

theorem openIf_fits {negated : Bool} (h : openIf env negated m = .ok m')
    (hm : m.ItemsFit limit) : m'.ItemsFit limit := by
  cases hexec : m.executing with
  | true =>
    obtain ⟨condition, rest, hstack, rfl⟩ := openIf_reached hexec h
    have hfits := hm.stack
    rw [hstack, Stack.fits_cons] at hfits
    exact ⟨hfits.2, hm.alt⟩
  | false =>
    cases (openIf_skipped hexec negated).symm.trans h
    exact ⟨hm.stack, hm.alt⟩

theorem toAlt_fits (h : toAlt m = .ok m') (hm : m.ItemsFit limit) : m'.ItemsFit limit := by
  obtain ⟨⟨item, rest⟩, hpop, h⟩ := bind_eq_ok.mp h
  cases h
  have hfits := hm.stack
  rw [Stack.pop_eq_ok_iff.mp hpop, Stack.fits_cons] at hfits
  exact ⟨hfits.2, Stack.fits_cons.mpr ⟨hfits.1, hm.alt⟩⟩

theorem fromAlt_fits (h : fromAlt m = .ok m') (hm : m.ItemsFit limit) : m'.ItemsFit limit := by
  unfold fromAlt at h
  split at h
  · cases h
  · next item rest halt =>
    cases h
    have hfits := hm.alt
    rw [halt, Stack.fits_cons] at hfits
    exact ⟨Stack.fits_cons.mpr ⟨hfits.1, hm.stack⟩, hfits.2⟩

theorem settle_fits {verify verdict : Bool} {fault : Fault}
    (h : settle verify fault verdict m = .ok m') (hlimit : 1 ≤ limit) (hm : m.ItemsFit limit) :
    m'.ItemsFit limit := by
  unfold settle at h
  split at h
  · split at h
    · cases h
      exact hm
    · cases h
  · cases h
    have hlength := Bytes.length_ofBool_le verdict
    exact ⟨Stack.fits_cons.mpr ⟨by omega, hm.stack⟩, hm.alt⟩

theorem checkSig_fits {verify : Bool} (h : (checkSig env verify m).result = .ok m')
    (hlimit : 1 ≤ limit) (hm : m.ItemsFit limit) : m'.ItemsFit limit := by
  obtain ⟨key, sig, rest, _, verdict, hstack, -, -, -, hsettle⟩ := checkSig_eq_ok_iff.mp h
  have hfits := hm.stack
  rw [hstack, Stack.fits_cons, Stack.fits_cons] at hfits
  exact settle_fits hsettle hlimit ⟨hfits.2.2, hm.alt⟩

theorem checkMultisig_fits {verify : Bool} (h : (checkMultisig env verify m).result = .ok m')
    (hlimit : 1 ≤ limit) (hm : m.ItemsFit limit) : m'.ItemsFit limit := by
  obtain ⟨ms, _, verdict, htake, -, -, hconclude⟩ := checkMultisig_eq_ok_iff.mp h
  obtain ⟨⟨keyCount, sigCount, hstack, -⟩, -⟩ := Multisig.layout_of_take htake
  have hfits := hm.stack
  rw [hstack] at hfits
  simp only [Stack.fits_cons, Stack.fits_append] at hfits
  exact settle_fits (conclude_ok hconclude) hlimit ⟨hfits.2.2.2.2.2, hm.alt⟩

theorem act_fits (hlimits : env.limits.Roomy) (h : (act env m here).result = .ok m')
    (hheight : m'.stack.length ≤ Limits.maxCount) (hm : m.ItemsFit env.limits.maxElementSize) :
    m'.ItemsFit env.limits.maxElementSize := by
  have hdigest := hlimits.digest
  have hone : 1 ≤ env.limits.maxElementSize := by omega
  dsimp only [act] at h
  cases hop : Operation.ofOpcode here.instruction.opcode <;> simp only [hop] at h
  case constant n =>
    cases h
    have hlength := Number.length_encode_small (Operation.natAbs_constant_le hop)
    exact ⟨Stack.fits_cons.mpr ⟨by omega, hm.stack⟩, hm.alt⟩
  case nop =>
    cases h
    exact hm
  case codeSeparator =>
    cases h
    exact ⟨hm.stack, hm.alt⟩
  case earlyReturn => cases h
  case invalid => cases h
  case upgradableNop =>
    obtain ⟨rfl, -⟩ := upgradableNop_eq_ok_iff.mp h
    exact hm
  case lockTime =>
    obtain ⟨rfl, -⟩ := lockTimeVerify_eq_ok_iff.mp h
    exact hm
  case sequence =>
    obtain ⟨rfl, -⟩ := sequenceVerify_eq_ok_iff.mp h
    exact hm
  case openIf negated => exact openIf_fits h hm
  case switch =>
    obtain ⟨_, _, -, rfl⟩ := switchBranch_eq_ok_iff.mp h
    exact ⟨hm.stack, hm.alt⟩
  case closeIf =>
    obtain ⟨_, _, -, rfl⟩ := closeIf_eq_ok_iff.mp h
    exact ⟨hm.stack, hm.alt⟩
  case toAlt => exact toAlt_fits h hm
  case fromAlt => exact fromAlt_fits h hm
  case stack op =>
    obtain ⟨stack, hstack, h⟩ := bind_eq_ok.mp h
    cases h
    exact ⟨StackOp.run_fits hstack hdigest hheight hm.stack, hm.alt⟩
  case number op =>
    obtain ⟨stack, hstack, h⟩ := bind_eq_ok.mp h
    cases h
    exact ⟨NumberOp.run_fits hstack hlimits.number hm.stack, hm.alt⟩
  case checkSig verify => exact checkSig_fits h hone hm
  case checkMultisig verify => exact checkMultisig_fits h hone hm

theorem step_fits (hlimits : env.limits.Roomy) (h : (step env m here).result = .ok m')
    (hm : m.ItemsFit env.limits.maxElementSize) : m'.ItemsFit env.limits.maxElementSize := by
  obtain ⟨haccepts, hperform, hheight⟩ := step_ok_iff.mp h
  have hcounted : (m.count here.instruction).ItemsFit env.limits.maxElementSize :=
    ⟨hm.stack, hm.alt⟩
  rcases perform_cases hperform with ⟨-, -, hpush⟩ | ⟨-, hact⟩ | ⟨-, rfl⟩
  · obtain ⟨-, rfl⟩ := pushData_eq_ok_iff.mp hpush
    exact ⟨Stack.fits_cons.mpr ⟨haccepts.element, hm.stack⟩, hm.alt⟩
  · have hmax := hlimits.height
    exact act_fits hlimits hact (by omega) hcounted
  · exact hcounted

theorem steps_fit (hlimits : env.limits.Roomy) (h : (xs.foldlM (step env) m).result = .ok m')
    (hm : m.ItemsFit env.limits.maxElementSize) : m'.ItemsFit env.limits.maxElementSize := by
  induction xs generalizing m with
  | nil =>
    cases h
    exact hm
  | cons here xs ih =>
    obtain ⟨next, hstep, hrest⟩ := Run.foldlM_cons_ok.mp h
    exact ih hrest (step_fits hlimits hstep hm)

end Items

section Counts

/-- The keys of the multisignatures that the instructions execute from a machine on. -/
def keysAlong (env : Env) (m : Machine) : List Located → Nat
  | [] => 0
  | here :: rest => m.keysCharged here +
    match (step env m here).result with
    | .ok next => keysAlong env next rest
    | .error _ => 0

theorem steps_count (h : (xs.foldlM (step env) m).result = .ok m') :
    m'.ops = m.ops + xs.countP (Opcode.isCounted ·.opcode) + keysAlong env m xs ∧
      (m.ops ≤ env.limits.maxOps → m'.ops ≤ env.limits.maxOps) := by
  induction xs generalizing m with
  | nil =>
    cases h
    exact ⟨rfl, id⟩
  | cons here xs ih =>
    obtain ⟨next, hstep, hrest⟩ := Run.foldlM_cons_ok.mp h
    obtain ⟨-, hops, hlimit⟩ := step_books hstep
    obtain ⟨hlater, hlimit'⟩ := ih hrest
    refine ⟨?_, fun hm => hlimit' (hlimit hm)⟩
    rw [hlater, hops, keysAlong, hstep, List.countP_cons]
    cases Opcode.isCounted here.opcode <;> simp <;> omega

theorem steps_height (h : (xs.foldlM (step env) m).result = .ok m') (hxs : xs ≠ []) :
    m'.stack.length + m'.alt.length ≤ env.limits.maxStackSize := by
  induction xs generalizing m with
  | nil => exact absurd rfl hxs
  | cons here xs ih =>
    obtain ⟨next, hstep, hrest⟩ := Run.foldlM_cons_ok.mp h
    by_cases hlast : xs = []
    · subst hlast
      cases hrest
      exact (step_ok_iff.mp hstep).2.2
    · exact ih hrest hlast

end Counts

end Machine

namespace Spend

variable {spend : Spend}

section Executions

/-- What stays fixed while a spend executes a script. -/
def environment (spend : Spend) (version : SigVersion) (script : Script) : Env :=
  { limits := spend.limits, flags := spend.flags, version, context := spend.context,
    digests := spend.digests, script }

/-- The executions of a spend: of the script that unlocks and, on the stack it leaves, of the one
that locks; of a script that stands on top of that stack; and of the script of a witness program,
on items that have been checked. -/
inductive Performs (spend : Spend) : SigVersion → Script → Stack → Prop
  | unlocking : Performs spend .base spend.scriptSig []
  | locking {unlocked} : (spend.execute .base spend.scriptSig []).result = .ok unlocked →
    Performs spend .base spend.scriptPubkey unlocked
  | redeeming {redeem rest} :
    (spend.execute .base spend.scriptSig []).result = .ok (redeem :: rest) →
    Performs spend .base redeem rest
  | program {program script items} : (spend.programScript program).result = .ok (script, items) →
    spend.checkItems items = .ok () → Performs spend .witnessV0 script (Stack.ofItems items)

/-- All that happens in a run are notes and what happens in executions of the spend. -/
def Accounts (spend : Spend) {α : Type} (run : Run α) : Prop :=
  ∀ event ∈ run.events, (∃ note, event = .note note) ∨ ∃ version script stack,
    spend.Performs version script stack ∧ event ∈ (spend.execute version script stack).events

variable {α β : Type}

theorem Accounts.of_quiet {run : Run α} (h : run.events = []) : spend.Accounts run := by
  intro event hevent
  simp [h] at hevent

theorem Accounts.bind {run : Run α} {next : α → Run β} (h : spend.Accounts run)
    (hnext : ∀ a, run.result = .ok a → spend.Accounts (next a)) :
    spend.Accounts (run >>= next) := by
  intro event hevent
  rw [Run.events_bind, List.mem_append] at hevent
  rcases hevent with hevent | hevent
  · exact h event hevent
  · cases hresult : run.result with
    | error fault => simp [hresult] at hevent
    | ok a =>
      rw [hresult] at hevent
      exact hnext a hresult event hevent

theorem Accounts.emit (note : Note) : spend.Accounts (Run.emit (.note note)) := by
  intro event hevent
  exact .inl ⟨note, List.mem_singleton.mp hevent⟩

theorem Performs.accounts {version : SigVersion} {script : Script} {stack : Stack}
    (h : spend.Performs version script stack) :
    spend.Accounts (spend.execute version script stack) :=
  fun _ hevent => .inr ⟨version, script, stack, h, hevent⟩

theorem programScript_accounts (spend : Spend) (program : Bytes) :
    spend.Accounts (spend.programScript program) := by
  unfold programScript
  split
  · split
    · exact .of_quiet rfl
    · split
      · exact .bind (.emit _) fun _ _ => .of_quiet rfl
      · exact .of_quiet rfl
  · split
    · split
      · exact .bind (.emit _) fun _ _ => .of_quiet rfl
      · exact .of_quiet rfl
    · exact .of_quiet rfl

theorem verifyProgram_accounts (spend : Spend) (version : Nat) (program : Bytes) :
    spend.Accounts (spend.verifyProgram version program) := by
  unfold verifyProgram
  split
  · refine .bind (programScript_accounts spend program) fun ⟨script, items⟩ hfound => ?_
    refine .bind (.of_quiet rfl) fun _ hitems => ?_
    have hperformed : spend.Performs .witnessV0 script (Stack.ofItems items) :=
      .program hfound hitems
    refine .bind hperformed.accounts fun stack _ => .of_quiet ?_
    split <;> rfl
  · refine .bind (.emit _) fun _ _ => .of_quiet ?_
    split <;> rfl

theorem witnessStage_accounts (spend : Spend) (script : Script) (clean : Bool) (fault : Fault)
    (stack : Stack) : spend.Accounts (spend.witnessStage script clean fault stack) := by
  unfold witnessStage
  split
  · split
    · split
      · exact .bind (verifyProgram_accounts spend _ _) fun _ _ => .of_quiet rfl
      · exact .of_quiet rfl
    · exact .of_quiet rfl
  · exact .of_quiet rfl

theorem redeemStage_accounts {unlocked : Stack}
    (h : (spend.execute .base spend.scriptSig []).result = .ok unlocked) :
    spend.Accounts (spend.redeemStage unlocked) := by
  unfold redeemStage
  split
  · cases unlocked with
    | nil => exact .of_quiet rfl
    | cons redeem rest =>
      refine .bind (Performs.redeeming h).accounts fun stack _ => ?_
      split
      · exact witnessStage_accounts spend _ _ _ _
      · exact .of_quiet rfl
  · exact .of_quiet rfl

theorem judge_accounts (spend : Spend) : spend.Accounts spend.judge := by
  rw [judge_eq]
  split
  · exact .of_quiet rfl
  · refine .bind Performs.unlocking.accounts fun unlocked hunlocked => ?_
    refine .bind (Performs.locking hunlocked).accounts fun stack _ => ?_
    split
    · refine .bind (witnessStage_accounts spend _ _ _ _) fun native _ => ?_
      unfold ending
      split
      · exact .bind (redeemStage_accounts hunlocked) fun _ _ => .of_quiet rfl
      · exact .of_quiet rfl
    · exact .of_quiet rfl

theorem verify_accounts (spend : Spend) : spend.Accounts spend.verify := by
  have hjudge := judge_accounts spend
  unfold verify
  dsimp only
  split
  · exact hjudge
  · intro event hevent
    rcases List.mem_append.mp hevent with hevent | hevent
    · exact hjudge event hevent
    · exact .inl ⟨_, List.mem_singleton.mp hevent⟩

end Executions

section Items

theorem execute_fits (hlimits : spend.limits.Roomy) {version : SigVersion} {script : Script}
    {stack final : Stack} (h : (spend.execute version script stack).result = .ok final)
    (hstack : stack.Fits spend.limits.maxElementSize) :
    final.Fits spend.limits.maxElementSize := by
  obtain ⟨m, hrun, hfinal⟩ := Run.bind_ok.mp h
  cases hfinal
  obtain ⟨-, hsteps, -⟩ := Machine.run_of_ok hrun
  have hstart : (Machine.start (spend.environment version script) stack).ItemsFit
      spend.limits.maxElementSize := ⟨hstack, Stack.fits_nil⟩
  exact (Machine.steps_fit hlimits hsteps hstart).stack

theorem checkItems_fits {items : Witness} (h : spend.checkItems items = .ok ()) :
    Stack.Fits spend.limits.maxElementSize (Stack.ofItems items) := by
  unfold checkItems at h
  split at h
  · cases h
  · next hnone =>
    intro item hitem
    have hshort := List.find?_eq_none.mp hnone item (List.mem_reverse.mp hitem)
    simpa using hshort

/-- All executions of a spend start on items that could have been pushed. -/
theorem Performs.fits (hlimits : spend.limits.Roomy) {version : SigVersion} {script : Script}
    {stack : Stack} (h : spend.Performs version script stack) :
    stack.Fits spend.limits.maxElementSize := by
  cases h with
  | unlocking => exact Stack.fits_nil
  | locking hunlocked => exact execute_fits hlimits hunlocked Stack.fits_nil
  | redeeming hunlocked =>
    exact (Stack.fits_cons.mp (execute_fits hlimits hunlocked Stack.fits_nil)).2
  | program _ hitems => exact checkItems_fits hitems

end Items

end Spend

open Machine

/-- Along every run that starts on items of bounded size, items stay within the size of a push,
after a step the stacks are within their limit, and the count of operations is within its limit
and made up of the counted opcodes and the keys of executed multisignatures. Under the default
limits the items are so bounded in all executions that the verification of a spend consists of. -/
theorem runs_keep_bounds :
    (∀ (env : Env) (stack : Stack), env.limits.Roomy → stack.Fits env.limits.maxElementSize →
      ∀ passed rest m, env.script.located = passed ++ rest →
        (passed.foldlM (step env) (start env stack)).result = .ok m →
        m.stack.Fits env.limits.maxElementSize ∧ m.alt.Fits env.limits.maxElementSize ∧
        (passed ≠ [] → m.stack.length + m.alt.length ≤ env.limits.maxStackSize) ∧
        m.ops ≤ env.limits.maxOps ∧
        m.ops = passed.countP (Opcode.isCounted ·.opcode) +
          keysAlong env (start env stack) passed) ∧
    ∀ spend : Spend, spend.limits = {} → spend.Accounts spend.verify ∧
      ∀ version script stack, spend.Performs version script stack →
        let env := spend.environment version script
        ∀ passed rest m, script.located = passed ++ rest →
          (passed.foldlM (step env) (start env stack)).result = .ok m →
          m.stack.Fits 520 ∧ m.alt.Fits 520 := by
  constructor
  · intro env stack hlimits hstack passed rest m _ hsteps
    have hstart : (start env stack).ItemsFit env.limits.maxElementSize := ⟨hstack, Stack.fits_nil⟩
    have hitems := steps_fit hlimits hsteps hstart
    obtain ⟨hops, hlimit⟩ := steps_count hsteps
    refine ⟨hitems.stack, hitems.alt, steps_height hsteps, hlimit (Nat.zero_le _), ?_⟩
    simpa [start] using hops
  · intro spend hdefault
    refine ⟨spend.verify_accounts, ?_⟩
    intro version script stack hperformed env passed rest m _ hsteps
    have hlimits : spend.limits.Roomy := hdefault ▸ Limits.roomy_default
    have hsize : env.limits.maxElementSize = 520 := by
      show spend.limits.maxElementSize = 520
      rw [hdefault]
    have hstart : (start env stack).ItemsFit env.limits.maxElementSize :=
      ⟨hperformed.fits hlimits, Stack.fits_nil⟩
    have hitems : m.ItemsFit env.limits.maxElementSize := steps_fit hlimits hsteps hstart
    rw [hsize] at hitems
    exact ⟨hitems.stack, hitems.alt⟩

/-- A sum has a byte more than its operands, which are as long as operands may be. -/
theorem runs_keep_bounds_wide_sum :
    let spend : Spend :=
      { scriptSig := [0x04, 0xff, 0xff, 0xff, 0x7f, 0x76, 0x93], scriptPubkey := [],
        flags := Flags.empty }
    let env := spend.environment .base spend.scriptSig
    let last : Machine :=
      { stack := [[0xfe, 0xff, 0xff, 0xff, 0x00]], code := spend.scriptSig, ops := 2 }
    env.limits.Roomy ∧ (env.script.located.foldlM (step env) (start env [])).result = .ok last ∧
      last.stack.Fits env.limits.maxElementSize ∧
      last.ops = env.script.located.countP (Opcode.isCounted ·.opcode) +
        keysAlong env (start env []) env.script.located ∧
      spend.limits = {} ∧ spend.Performs .base spend.scriptSig [] ∧ last.stack.Fits 520 := by
  intro spend env last
  have hsteps : (env.script.located.foldlM (step env) (start env [])).result = .ok last := by
    decide +kernel
  have hall : env.script.located = env.script.located ++ [] := (List.append_nil _).symm
  obtain ⟨hstack, -, -, -, hops⟩ :=
    runs_keep_bounds.1 env [] Limits.roomy_default Stack.fits_nil _ _ last hall hsteps
  have hspend := (runs_keep_bounds.2 spend rfl).2 .base spend.scriptSig [] .unlocking _ _ last hall
    hsteps
  exact ⟨Limits.roomy_default, hsteps, hstack, hops, rfl, .unlocking, hspend.1⟩

end CoinScript
