import CoinScript.Proofs.Bookkeeping
import CoinScript.Proofs.Relaxation
import CoinScript.Proofs.StackEffect
import CoinScript.Proofs.StaticValidity

/-! # What lies below is left alone

An instruction needs a number of items, which its opcode, and for some opcodes the numbers on
the stack, determine. It does the same whatever lies below them, and what lies below stays
there; only the opcode that pushes the height of the stack sees how many items there are. So a
script without that opcode runs on a higher stack as it does on its own part of it, if the
limit is raised by what is added.
-/
namespace CoinScript

section Needs

def StackOp.needs : StackOp → Nat
  | verify | drop | ifDup | size | hash _ => 1
  | dropPair | nip | tuck | equal | equalVerify => 2
  | dup n => n
  | copyOver n | swap n => 2 * n
  | rot n => 3 * n
  | depth => 0

def NumberOp.needs (s : Stack) : NumberOp → Nat
  | unary _ | unaryTest _ => 1
  | binary _ | binaryTest _ | equalVerify => 2
  | within => 3
  | pick | roll => Machine.keyCount s + 2

/-- Two counts with as many items after each, and one item more. -/
def Machine.Multisig.needs (s : Stack) : Nat :=
  keyCount s + keyCount (s.drop (keyCount s + 1)) + 3

/-- The items of its stack that a machine needs for an operation. -/
def Operation.needs (env : Env) (m : Machine) : Operation → Nat
  | openIf _ => if m.executing then 1 else 0
  | toAlt => 1
  | lockTime => if env.flags.has .checkLockTimeVerify then 1 else 0
  | sequence => if env.flags.has .checkSequenceVerify then 1 else 0
  | stack op => op.needs
  | number op => op.needs m.stack
  | checkSig _ => 2
  | checkMultisig _ => Machine.Multisig.needs m.stack
  | _ => 0

/-- The items that a machine needs for an instruction. -/
def Machine.needs (env : Env) (m : Machine) (here : Located) : Nat :=
  if m.executing && here.instruction.isPush then 0
  else if m.executing || Opcode.isConditional here.opcode then
    (Operation.ofOpcode here.opcode).needs env m
  else 0

variable {taken given : List Bytes}

theorem StackOp.Effect.length_taken {digests : Digests} {op : StackOp}
    (h : op.Effect digests taken given) :
    taken.length = op.needs := by
  cases h <;> simp only [StackOp.needs, List.length_cons, List.length_nil, List.length_append] <;>
    omega

theorem NumberOp.Effect.length_taken {format : Number.Format} {op : NumberOp}
    (h : op.Effect format taken given) (rest : Stack) :
    taken.length = op.needs (taken ++ rest) := by
  cases h with
  | pick hx hclamp | roll hx hclamp =>
    rw [List.cons_append]
    simp only [NumberOp.needs, Machine.keyCount_of_read hx hclamp, List.length_cons,
      List.length_append, List.length_nil]
  | _ => rfl

end Needs

namespace Machine

variable {env : Env} {m m' : Machine} {here : Located} {n : Nat}

def withStack (m : Machine) (stack : Stack) : Machine := { m with stack }

/-- A machine goes from `m` to `m'` in such a way that it looks at `n` items only and leaves those
below as they are. -/
def Local (f : Machine → Except Fault Machine) (n : Nat) (m m' : Machine) : Prop :=
  n ≤ m.stack.length ∧ ∃ given, m'.stack = given ++ m.stack.drop n ∧ ∀ below,
    f (m.withStack (m.stack.take n ++ below)) = .ok (m'.withStack (given ++ below))

section Operations

variable {f : Machine → Except Fault Machine}

theorem Local.of_split {taken given : List Bytes} {rest : Stack} (hm : m.stack = taken ++ rest)
    (hn : taken.length = n) (hm' : m'.stack = given ++ rest)
    (h : ∀ below, f (m.withStack (taken ++ below)) = .ok (m'.withStack (given ++ below))) :
    Local f n m m' := by
  have htake : m.stack.take n = taken := by rw [hm, List.take_left' hn]
  have hdrop : m.stack.drop n = rest := by rw [hm, List.drop_left' hn]
  refine ⟨?_, given, ?_, ?_⟩
  · rw [hm, List.length_append]
    omega
  · rw [hm', hdrop]
  · rw [htake]
    exact h

theorem Local.of_blind (hm' : m'.stack = m.stack)
    (h : ∀ stack, f (m.withStack stack) = .ok (m'.withStack stack)) : Local f 0 m m' := by
  have hsplit : m.stack = [] ++ m.stack := rfl
  have hsplit' : m'.stack = [] ++ m.stack := hm'
  exact Local.of_split hsplit rfl hsplit' h

theorem Local.of_push {item : Bytes} (hm' : m'.stack = item :: m.stack)
    (h : ∀ stack, f (m.withStack stack) = .ok (m'.withStack (item :: stack))) : Local f 0 m m' := by
  have hsplit : m.stack = [] ++ m.stack := rfl
  have hsplit' : m'.stack = [item] ++ m.stack := hm'
  exact Local.of_split hsplit rfl hsplit' h

theorem onStack_local {run : Stack → Except Fault Stack} {effect : List Bytes → List Bytes → Prop}
    (hrun : ActsBy run effect)
    (hneeds : ∀ taken given rest, effect taken given → m.stack = taken ++ rest → taken.length = n)
    (h : onStack run m = .ok m') : Local (onStack run) n m m' := by
  obtain ⟨stack, hstack, h⟩ := bind_eq_ok.mp h
  cases h
  obtain ⟨taken, given, rest, heffect, hm, hm'⟩ := (hrun m.stack stack).mp hstack
  refine .of_split hm (hneeds taken given rest heffect hm) hm' fun below => ?_
  have hbelow := (hrun (taken ++ below) (given ++ below)).mpr
    ⟨taken, given, below, heffect, rfl, rfl⟩
  exact bind_eq_ok.mpr ⟨given ++ below, hbelow, rfl⟩

theorem openIf_local {negated : Bool} (h : openIf env negated m = .ok m') :
    Local (openIf env negated) (if m.executing then 1 else 0) m m' := by
  cases hexec : m.executing with
  | false =>
    cases (openIf_skipped hexec negated).symm.trans h
    have hexec' (stack : Stack) : (m.withStack stack).executing = false := hexec
    exact .of_blind rfl fun stack => openIf_skipped (hexec' stack) negated
  | true =>
    have hexec' (stack : Stack) : (m.withStack stack).executing = true := hexec
    simp only [openIf, hexec, ↓reduceIte] at h
    split at h
    · cases h
    · next condition rest hstack =>
      obtain ⟨_, hcondition, h⟩ := bind_eq_ok.mp h
      cases h
      have hsplit : m.stack = [condition] ++ rest := hstack
      refine .of_split hsplit rfl (List.nil_append rest).symm fun below => ?_
      simp only [openIf, hexec', ↓reduceIte]
      exact bind_eq_ok.mpr ⟨(), hcondition, rfl⟩

theorem toAlt_local (h : toAlt m = .ok m') : Local toAlt 1 m m' := by
  obtain ⟨⟨item, rest⟩, hpop, h⟩ := bind_eq_ok.mp h
  cases h
  have hsplit : m.stack = [item] ++ rest := Stack.pop_eq_ok_iff.mp hpop
  exact .of_split hsplit rfl (List.nil_append rest).symm fun below => rfl

theorem fromAlt_local (h : fromAlt m = .ok m') : Local fromAlt 0 m m' := by
  unfold fromAlt at h
  split at h
  · cases h
  · next item rest halt =>
    cases h
    refine .of_push rfl fun stack => ?_
    have halt' : (m.withStack stack).alt = item :: rest := halt
    simp only [fromAlt, halt']
    rfl

theorem lockOperandOf_eq_ok_iff {s : Stack} {lock : Nat} : lockOperandOf env s = .ok lock ↔
    ∃ top rest, s = top :: rest ∧ Number.read env.lockFormat top = .ok (lock : Int) := by
  unfold lockOperandOf Stack.getNum
  constructor
  · intro h
    obtain ⟨value, hvalue, h⟩ := bind_eq_ok.mp h
    obtain ⟨top, hpeek, hread⟩ := bind_eq_ok.mp hvalue
    obtain ⟨rest, hs⟩ := Stack.peek_top_eq_ok_iff.mp hpeek
    split at h
    · cases h
    · next hvalue =>
      cases h
      refine ⟨top, rest, hs, ?_⟩
      rwa [Int.toNat_of_nonneg (Int.not_lt.mp hvalue)]
  · rintro ⟨top, rest, rfl, hread⟩
    refine bind_eq_ok.mpr ⟨lock, bind_eq_ok.mpr ⟨top, Stack.peek_top top rest, hread⟩, ?_⟩
    rw [if_neg (by omega)]
    rfl

theorem lock_local {rule : Bool} {Unlocked : Nat → Prop} {Allowed : Prop}
    (hf : ∀ m m', f m = .ok m' ↔ m' = m ∧ if rule then
      ∃ lock, lockOperandOf env m.stack = .ok lock ∧ Unlocked lock else Allowed)
    (h : f m = .ok m') : Local f (if rule then 1 else 0) m m' := by
  obtain ⟨rfl, hpasses⟩ := (hf m m').mp h
  cases rule with
  | false => exact .of_blind rfl fun stack => (hf _ _).mpr ⟨rfl, hpasses⟩
  | true =>
    obtain ⟨lock, hlock, hunlocked⟩ := hpasses
    obtain ⟨top, rest, hstack, hread⟩ := lockOperandOf_eq_ok_iff.mp hlock
    have hsplit : m'.stack = [top] ++ rest := hstack
    refine .of_split hsplit rfl hsplit fun below => (hf _ _).mpr ⟨rfl, lock, ?_, hunlocked⟩
    exact lockOperandOf_eq_ok_iff.mpr ⟨top, below, rfl, hread⟩

theorem lockTimeVerify_local {opcode : UInt8} (h : lockTimeVerify env opcode m = .ok m') :
    Local (lockTimeVerify env opcode)
      (if env.flags.has .checkLockTimeVerify then 1 else 0) m m' := by
  have hcompares (m m' : Machine) : lockTimeVerify env opcode m = .ok m' ↔ m' = m ∧
      if env.flags.has .checkLockTimeVerify then
        ∃ lock, lockOperandOf env m.stack = .ok lock ∧
          ∃ ctx, env.context = some ctx ∧ checkLockTime ctx lock = .ok ()
      else env.flags.has .discourageUpgradableNops = false := by
    rw [lockTimeVerify_eq_ok_iff]
    simp only [exists_and_left]
  exact lock_local hcompares h

theorem sequenceVerify_local {opcode : UInt8} (h : sequenceVerify env opcode m = .ok m') :
    Local (sequenceVerify env opcode)
      (if env.flags.has .checkSequenceVerify then 1 else 0) m m' :=
  lock_local (fun _ _ => sequenceVerify_eq_ok_iff) h

theorem settle_given {verify verdict : Bool} {fault : Fault}
    (h : settle verify fault verdict m = .ok m') :
    ∃ given, m' = m.withStack (given ++ m.stack) ∧ ∀ stack,
      settle verify fault verdict (m.withStack stack) = .ok (m.withStack (given ++ stack)) := by
  cases verify with
  | false =>
    cases h
    exact ⟨[Bytes.ofBool verdict], rfl, fun _ => rfl⟩
  | true =>
    cases verdict with
    | false => cases h
    | true =>
      cases h
      exact ⟨[], rfl, fun _ => rfl⟩

theorem conclude_given {verify verdict : Bool} {sigs : List Bytes} {dummy : Bytes}
    (h : conclude env verify sigs dummy verdict m = .ok m') :
    ∃ given, m' = m.withStack (given ++ m.stack) ∧ ∀ stack,
      conclude env verify sigs dummy verdict (m.withStack stack) =
        .ok (m.withStack (given ++ stack)) := by
  unfold conclude at h ⊢
  split at h
  · cases h
  next hnull =>
  split at h
  · cases h
  next hdummy =>
  obtain ⟨given, hm', hgiven⟩ := settle_given h
  refine ⟨given, hm', fun stack => ?_⟩
  rw [if_neg hnull, if_neg hdummy]
  exact hgiven stack

theorem checkSig_local {verify : Bool} (h : (checkSig env verify m).result = .ok m') :
    Local (fun m => (checkSig env verify m).result) 2 m m' := by
  obtain ⟨key, sig, rest, code, verdict, hstack, hcode, hverdict, hnull, hsettle⟩ :=
    checkSig_eq_ok_iff.mp h
  obtain ⟨given, rfl, hgiven⟩ := settle_given hsettle
  have hsplit : m.stack = [key, sig] ++ rest := hstack
  refine .of_split hsplit rfl rfl fun below => checkSig_eq_ok_iff.mpr ?_
  exact ⟨key, sig, below, code, verdict, rfl, hcode, hverdict, hnull, hgiven below⟩

theorem Multisig.Layout.length_sigs {s rest : Stack} {keys sigs : List Bytes} {dummy : Bytes}
    (h : Layout env s keys sigs dummy rest) :
    sigs.length = keyCount (s.drop (keys.length + 1)) := by
  obtain ⟨top, mid, rfl, -, -, ⟨value, hread, hclamp⟩, -⟩ := h
  rw [List.drop_succ_cons, List.drop_left]
  exact (keyCount_of_read hread hclamp _).symm

theorem Multisig.Layout.split {s rest : Stack} {keys sigs : List Bytes} {dummy : Bytes}
    (h : Layout env s keys sigs dummy rest) : ∃ taken, s = taken ++ rest ∧
      taken.length = needs s ∧ ∀ below, Layout env (taken ++ below) keys sigs dummy below := by
  have hkeys := h.length_keys
  have hsigs := h.length_sigs
  obtain ⟨top, mid, hs, hcount, hmax, hcount', hle⟩ := h
  refine ⟨top :: (keys ++ mid :: (sigs ++ [dummy])), ?_, ?_, fun below => ?_⟩
  · rw [hs]
    simp
  · unfold needs
    rw [← hkeys, ← hsigs]
    simp only [List.length_cons, List.length_append, List.length_nil]
    omega
  · exact ⟨top, mid, by simp, hcount, hmax, hcount', hle⟩

theorem checkMultisig_local {verify : Bool} (h : (checkMultisig env verify m).result = .ok m') :
    Local (fun m => (checkMultisig env verify m).result) (Multisig.needs m.stack) m m' := by
  obtain ⟨ms, code, verdict, htake, hcode, hverdict, hconclude⟩ := checkMultisig_eq_ok_iff.mp h
  obtain ⟨hlayout, hops, hlimit⟩ := Multisig.layout_of_take htake
  obtain ⟨taken, hsplit, hlength, hbelow⟩ := hlayout.split
  obtain ⟨given, rfl, hgiven⟩ := conclude_given hconclude
  refine .of_split hsplit hlength rfl fun below => checkMultisig_eq_ok_iff.mpr ?_
  have htake' : Multisig.take env (m.withStack (taken ++ below)) =
      .ok { ms with rest := below } := by
    rw [Multisig.take_of_layout (hbelow below), if_neg]
    · rw [hops]
      rfl
    · show ¬env.limits.maxOps < m.ops + ms.keys.length
      omega
  exact ⟨_, code, verdict, htake', hcode, hverdict, hgiven below⟩

end Operations

section Instructions

theorem Local.congr {f g : Machine → Except Fault Machine} (h : Local g n m m')
    (hfg : ∀ stack, f (m.withStack stack) = g (m.withStack stack)) : Local f n m m' := by
  obtain ⟨hn, given, hm', hgiven⟩ := h
  exact ⟨hn, given, hm', fun below => (hfg _).trans (hgiven below)⟩

theorem act_local (hop : Opcode.kind here.opcode ≠ .depth) (h : (act env m here).result = .ok m') :
    Local (fun m => (act env m here).result) ((Operation.ofOpcode here.opcode).needs env m)
      m m' := by
  rw [← Operation.kind_ofOpcode] at hop
  dsimp only [act] at h ⊢
  unfold Located.opcode at hop ⊢
  generalize Operation.ofOpcode here.instruction.opcode = op at hop h ⊢
  cases op with
  | constant n =>
    cases h
    exact .of_push rfl fun _ => rfl
  | nop | codeSeparator =>
    cases h
    exact .of_blind rfl fun _ => rfl
  | earlyReturn | invalid => cases h
  | upgradableNop =>
    obtain ⟨rfl, hallowed⟩ := upgradableNop_eq_ok_iff.mp h
    exact .of_blind rfl fun _ => upgradableNop_eq_ok_iff.mpr ⟨rfl, hallowed⟩
  | openIf negated => exact openIf_local h
  | switch =>
    obtain ⟨taken, branches, hbranches, rfl⟩ := switchBranch_eq_ok_iff.mp h
    exact .of_blind rfl fun _ => switchBranch_eq_ok_iff.mpr ⟨taken, branches, hbranches, rfl⟩
  | closeIf =>
    obtain ⟨taken, branches, hbranches, rfl⟩ := closeIf_eq_ok_iff.mp h
    exact .of_blind rfl fun _ => closeIf_eq_ok_iff.mpr ⟨taken, branches, hbranches, rfl⟩
  | lockTime => exact lockTimeVerify_local h
  | sequence => exact sequenceVerify_local h
  | toAlt => exact toAlt_local h
  | fromAlt => exact fromAlt_local h
  | stack op =>
    have hdepth : op ≠ .depth := by
      rintro rfl
      exact hop rfl
    exact onStack_local (StackOp.run_actsBy hdepth) (fun _ _ _ heffect _ => heffect.length_taken) h
  | number op =>
    refine onStack_local (NumberOp.run_actsBy _ op) (fun taken given rest heffect hm => ?_) h
    rw [Operation.needs, hm]
    exact heffect.length_taken rest
  | checkSig verify => exact checkSig_local h
  | checkMultisig verify => exact checkMultisig_local h

theorem kind_eq_depth_iff {opcode : UInt8} :
    Opcode.kind opcode = .depth ↔ opcode = Opcode.depth := by
  have hseparator : Opcode.depth ≠ Opcode.codeSeparator := by decide
  have hsingle : ¬(Opcode.depth = Opcode.checkSig ∨ Opcode.depth = Opcode.checkSigVerify) := by
    decide
  have hmulti : ¬(Opcode.depth = Opcode.checkMultisig ∨
      Opcode.depth = Opcode.checkMultisigVerify) := by decide
  unfold Opcode.kind
  grind

/-- An instruction looks at the items it needs only, unless it executes and pushes the height of
the stack. -/
theorem perform_local (hop : here.opcode = Opcode.depth → m.executing = false)
    (h : (perform env m here).result = .ok m') :
    Local (fun m => (perform env m here).result) (m.needs env here) m m' := by
  have hexec (stack : Stack) : (m.withStack stack).executing = m.executing := rfl
  unfold needs
  unfold perform at h
  split at h
  · next hpush =>
    obtain ⟨hminimal, rfl⟩ := pushData_eq_ok_iff.mp h
    rw [if_pos hpush]
    refine .of_push rfl fun stack => ?_
    simp only [perform, hexec, hpush, ↓reduceIte]
    exact pushData_eq_ok_iff.mpr ⟨hminimal, rfl⟩
  · next hpush =>
    rw [if_neg hpush]
    split at h
    · next hacts =>
      have hacts' : (m.executing || Opcode.isConditional here.opcode) = true := hacts
      have hkind : Opcode.kind here.opcode ≠ .depth := by
        intro hdepth
        rw [hop (kind_eq_depth_iff.mp hdepth), Bool.false_or] at hacts'
        rw [Opcode.kind_of_isConditional hacts'] at hdepth
        cases hdepth
      rw [if_pos hacts']
      refine (act_local hkind h).congr fun stack => ?_
      simp only [perform, hexec, hpush, hacts, ↓reduceIte]
      rfl
    · next hskipped =>
      have hskipped' : ¬(m.executing || Opcode.isConditional here.opcode) = true := hskipped
      rw [if_neg hskipped']
      cases h
      refine .of_blind rfl fun stack => ?_
      simp only [perform, hexec, hpush, hskipped]
      rfl

theorem Local.over {f : Machine → Except Fault Machine} (h : Local f n m m') (base : Stack) :
    f (m.withStack (m.stack ++ base)) = .ok (m'.withStack (m'.stack ++ base)) := by
  obtain ⟨-, given, hm', hgiven⟩ := h
  have hbase := hgiven (m.stack.drop n ++ base)
  rw [← List.append_assoc, List.take_append_drop, ← List.append_assoc, ← hm'] at hbase
  exact hbase

theorem perform_depth (env : Env) (hop : here.opcode = Opcode.depth) (hexec : m.executing = true) :
    m.needs env here = 0 ∧
      (perform env m here).result =
        .ok (m.withStack (Number.encode m.stack.length :: m.stack)) := by
  have hopcode : here.instruction.opcode = Opcode.depth := hop
  have hpush : here.instruction.isPush = false := by
    rw [Instruction.isPush, hopcode]
    rfl
  have hneeds : (Operation.ofOpcode Opcode.depth).needs env m = 0 := rfl
  constructor
  · simp [needs, hexec, hpush, hop, hneeds]
  · simp only [perform, hexec, hpush, Bool.and_false, Bool.false_eq_true, ↓reduceIte, Bool.true_or]
    dsimp only [act]
    rw [hopcode]
    rfl

/-- What an instruction gives may depend on the height of the stack, but on no item below those
it needs. -/
theorem perform_sees (h : (perform env m here).result = .ok m') :
    m.needs env here ≤ m.stack.length ∧ ∃ given : Nat → List Bytes,
      (here.opcode ≠ Opcode.depth → ∀ height, given height = given 0) ∧
      (∀ height, (given height).length = (given 0).length) ∧
      m'.stack = given m.stack.length ++ m.stack.drop (m.needs env here) ∧ ∀ below,
        (perform env (m.withStack (m.stack.take (m.needs env here) ++ below)) here).result =
          .ok (m'.withStack (given (m.needs env here + below.length) ++ below)) := by
  by_cases hdepth : here.opcode = Opcode.depth ∧ m.executing = true
  · obtain ⟨hop, hexec⟩ := hdepth
    obtain ⟨hneeds, hresult⟩ := perform_depth env hop hexec
    cases hresult.symm.trans h
    rw [hneeds]
    refine ⟨Nat.zero_le _, fun height => [Number.encode height], ?_, fun _ => rfl, rfl, ?_⟩
    · exact fun hother => absurd hop hother
    · intro below
      have hexec' : (m.withStack below).executing = true := hexec
      rw [Nat.zero_add]
      exact (perform_depth env hop hexec').2
  · have hskipped : here.opcode = Opcode.depth → m.executing = false := fun hop =>
      Bool.eq_false_iff.mpr fun hexec => hdepth ⟨hop, hexec⟩
    obtain ⟨hn, given, hm', hgiven⟩ := perform_local hskipped h
    exact ⟨hn, fun _ => given, fun _ _ => rfl, fun _ => rfl, hm', hgiven⟩

end Instructions

end Machine

section Raising

def Env.raised (env : Env) (n : Nat) : Env :=
  { env with limits := { env.limits with maxStackSize := env.limits.maxStackSize + n } }

theorem Env.relaxed_raised (env : Env) (n : Nat) : env.Relaxed (env.raised n) where
  limits :=
    { Limits.Within.refl env.limits with stack := Nat.le_add_right env.limits.maxStackSize n }
  flags := ⟨Flags.includes_self _, fun _ => id, fun _ => id⟩
  version := rfl
  context := rfl
  digests := rfl
  script := rfl

end Raising

namespace Machine

variable {env : Env} {m m' : Machine} {here : Located} {xs : List Located}

theorem step_raised {room : Nat} {stack stack' : Stack}
    (h : (step env m here).result = .ok m')
    (hperform : (perform env ((m.count here.instruction).withStack stack) here).result =
      .ok (m'.withStack stack'))
    (hheight : stack'.length + m'.alt.length ≤ env.limits.maxStackSize + room) :
    (step (env.raised room) (m.withStack stack) here).result = .ok (m'.withStack stack') := by
  obtain ⟨haccepts, -, -⟩ := step_ok_iff.mp h
  refine step_ok_iff.mpr ⟨?_, ?_, hheight⟩
  · exact ⟨haccepts.whole, haccepts.element, haccepts.counted, haccepts.enabled,
      haccepts.separator⟩
  · exact perform_preserved (env.relaxed_raised room) _ here _ hperform

theorem step_over (hop : here.opcode ≠ Opcode.depth) (h : (step env m here).result = .ok m')
    (base : Stack) :
    (step (env.raised base.length) (m.withStack (m.stack ++ base)) here).result =
      .ok (m'.withStack (m'.stack ++ base)) := by
  obtain ⟨-, hperform, hheight⟩ := step_ok_iff.mp h
  have hlocal := perform_local (fun hdepth => absurd hdepth hop) hperform
  refine step_raised h (hlocal.over base) ?_
  rw [List.length_append]
  omega

theorem steps_over (hxs : ∀ here ∈ xs, here.opcode ≠ Opcode.depth)
    (h : (xs.foldlM (step env) m).result = .ok m') (base : Stack) :
    (xs.foldlM (step (env.raised base.length)) (m.withStack (m.stack ++ base))).result =
      .ok (m'.withStack (m'.stack ++ base)) := by
  induction xs generalizing m with
  | nil =>
    cases h
    rfl
  | cons here xs ih =>
    obtain ⟨next, hstep, hrest⟩ := Run.foldlM_cons_ok.mp h
    have hhere := step_over (hxs here List.mem_cons_self) hstep base
    have hlater := ih (fun later hlater => hxs later (List.mem_cons_of_mem here hlater)) hrest
    exact Run.foldlM_cons_ok.mpr ⟨_, hhere, hlater⟩

theorem step_sees (h : (step env m here).result = .ok m') :
    m.needs env here ≤ m.stack.length ∧ ∃ given : Nat → List Bytes,
      (here.opcode ≠ Opcode.depth → ∀ height, given height = given 0) ∧
      m'.stack = given m.stack.length ++ m.stack.drop (m.needs env here) ∧ ∀ below,
        (step (env.raised below.length)
          (m.withStack (m.stack.take (m.needs env here) ++ below)) here).result =
            .ok (m'.withStack (given (m.needs env here + below.length) ++ below)) := by
  obtain ⟨-, hperform, hheight⟩ := step_ok_iff.mp h
  obtain ⟨hn, given, hsteady, hlength, hm', hgiven⟩ := perform_sees hperform
  refine ⟨hn, given, hsteady, hm', fun below => step_raised h (hgiven below) ?_⟩
  have hsame := hlength (m.needs env here + below.length)
  have hbefore := hlength m.stack.length
  have hstack := congrArg List.length hm'
  rw [List.length_append] at hstack ⊢
  change _ = (given m.stack.length).length + _ at hstack
  change (given (m.needs env here + below.length)).length + below.length + m'.alt.length ≤ _
  omega

theorem execute_over (hscript : ∀ ins ∈ env.script.instructions, ins.opcode ≠ Opcode.depth)
    {xs ys : Stack} (h : (env.execute xs).result = .ok ys) (base : Stack) :
    ((env.raised base.length).execute (xs ++ base)).result = .ok (ys ++ base) := by
  obtain ⟨m, hrun, hys⟩ := Run.bind_ok.mp h
  cases hys
  obtain ⟨hsize, hsteps, hclosed⟩ := run_of_ok hrun
  have hlocated : ∀ here ∈ env.script.located, here.opcode ≠ Opcode.depth := fun here hhere =>
    hscript here.instruction (List.mem_map_of_mem hhere)
  have hover := steps_over hlocated hsteps base
  have hsize' : (env.raised base.length).script.length ≤
      (env.raised base.length).limits.maxScriptSize := hsize
  refine Run.bind_ok.mpr ⟨m.withStack (m.stack ++ base), ?_, rfl⟩
  rw [run_of_size hsize']
  exact bind_eq_ok.mpr ⟨_, hover, if_pos hclosed⟩

/-- A script that does not push the height of the stack leaves alone what lies below the stack it
succeeds on, with the limit raised to make room for it. Any instruction at all looks only at the
items it needs, apart from that one opcode, which sees how many items there are. -/
theorem execute_leaves_base (env : Env) :
    ((∀ ins ∈ env.script.instructions, ins.opcode ≠ Opcode.depth) →
      ∀ base xs ys : Stack, (env.execute xs).result = .ok ys →
        ((env.raised base.length).execute (xs ++ base)).result = .ok (ys ++ base)) ∧
    ∀ m m' here, (step env m here).result = .ok m' →
      m.needs env here ≤ m.stack.length ∧ ∃ given : Nat → List Bytes,
        (here.opcode ≠ Opcode.depth → ∀ height, given height = given 0) ∧
        m'.stack = given m.stack.length ++ m.stack.drop (m.needs env here) ∧ ∀ below,
          (step (env.raised below.length)
            (m.withStack (m.stack.take (m.needs env here) ++ below)) here).result =
              .ok (m'.withStack (given (m.needs env here + below.length) ++ below)) :=
  ⟨fun hscript base _ _ h => execute_over hscript h base, fun _ _ _ h => step_sees h⟩

/-- Two items below three, of which the last is moved to the top: the four items that this needs
fill the stack up to its limit. -/
theorem execute_leaves_base_roll :
    let env : Env :=
      { limits := { maxStackSize := 4 }, flags := Flags.empty, script := [0x52, 0x7a] }
    let base : Stack := [[9], [8]]
    let m : Machine := { stack := [[2], [1], [2], [3]], code := env.script }
    let m' : Machine := { stack := [[3], [1], [2]], code := env.script, ops := 1 }
    let here : Located := ⟨{ opcode := 0x7a }, []⟩
    ((env.raised 2).execute ([[1], [2], [3]] ++ base)).result = .ok ([[3], [1], [2]] ++ base) ∧
      (step env m here).result = .ok m' ∧ m.needs env here = 4 ∧
      (step (env.raised 2) (m.withStack (m.stack ++ base)) here).result =
        .ok (m'.withStack (m'.stack ++ base)) := by
  intro env base m m' here
  have hscript : ∀ ins ∈ env.script.instructions, ins.opcode ≠ Opcode.depth := by decide +kernel
  have hok : (env.execute [[1], [2], [3]]).result = .ok [[3], [1], [2]] := by decide +kernel
  have hstep : (step env m here).result = .ok m' := by decide +kernel
  have hneeds : m.needs env here = 4 := by decide +kernel
  have hother : here.opcode ≠ Opcode.depth := by decide
  obtain ⟨hbase, hsees⟩ := execute_leaves_base env
  obtain ⟨-, given, hsteady, hgiven, hbelow⟩ := hsees m m' here hstep
  rw [hneeds, hsteady hother] at hgiven
  have hroll := hbelow base
  rw [hneeds, hsteady hother] at hroll
  refine ⟨hbase hscript base _ _ hok, hstep, hneeds, ?_⟩
  have hall : m'.stack = given 0 := by simpa [m] using hgiven
  rw [hall]
  exact hroll

end Machine

end CoinScript
