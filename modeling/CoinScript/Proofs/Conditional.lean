import CoinScript.Proofs.Nesting

/-! # Structured conditionals

The stack of branches implements conditionals with any number of alternatives, nested in any
way: a conditional runs every other one of its blocks and skips the rest. A skipped block is
still accepted and counted, and follows its own nesting, but has no other effect.
-/
namespace CoinScript

@[simp] theorem Branches.allTaken_append (inner base : Branches) :
    allTaken (inner ++ base) = (inner.allTaken && base.allTaken) := List.all_append

@[simp] theorem Branches.allTaken_cons (taken : Bool) (base : Branches) :
    allTaken (taken :: base) = (taken && base.allTaken) := List.all_cons

/-- The blocks of even index one after the other, or those of odd index. -/
def alternate (even : Bool) (blocks : List (List Located)) : List Located :=
  (blocks.zipIdx.filter fun block => (block.2 % 2 == 0) == even).flatMap (·.1)

theorem alternate_cons (even : Bool) (block : List Located) (blocks : List (List Located)) :
    alternate even (block :: blocks) =
      (if even then block else []) ++ alternate (!even) blocks := by
  have hshift : ((blocks.zipIdx 1).filter fun block => (block.2 % 2 == 0) == even).flatMap (·.1) =
      alternate (!even) blocks := by
    have hparity (i : Nat) : (((i + 1) % 2 == 0) == even) = ((i % 2 == 0) == !even) := by
      grind
    simp [alternate, List.zipIdx_succ, List.filter_map, List.flatMap_map, Function.comp_def,
      hparity]
  cases even with
  | false => exact hshift
  | true => exact congrArg (block ++ ·) hshift

/-- A conditional with its blocks: one that comes first, and each other one after the
instruction that switches to it. -/
structure Conditional where
  opener : Located
  first : List Located
  others : List (Located × List Located)
  closer : Located
  opens : Opcode.opens opener.opcode = true
  switches : ∀ other ∈ others, other.1.opcode = Opcode.otherwise
  closes : closer.opcode = Opcode.endIf
  first_nested : WellNested first
  others_nested : ∀ other ∈ others, WellNested other.2

namespace Conditional

def negated (c : Conditional) : Bool := c.opener.opcode = Opcode.notIf

def blocks (c : Conditional) : List (List Located) := c.first :: c.others.map (·.2)

def located (c : Conditional) : List Located :=
  c.opener :: (c.first ++ c.others.flatMap (fun other => other.1 :: other.2) ++ [c.closer])

end Conditional

namespace Machine

variable {env : Env} {m m' : Machine} {here : Located} {xs : List Located} {fault : Fault}

section Skipping

variable {inner base : Branches} {depth : Nat}

/-- The faults of an instruction in a branch that is not taken. -/
inductive SkipFault (env : Env) (ins : Instruction) : Fault → Prop
  | cut : ins.cut = true → SkipFault env ins (.cutPush ins.opcode)
  | ver : ins.opcode = Opcode.verIf ∨ ins.opcode = Opcode.verNotIf →
    SkipFault env ins (.invalidOpcode ins.opcode)
  | element : env.limits.maxElementSize < ins.data.length →
    SkipFault env ins (.longElement ins.data.length env.limits.maxElementSize)
  | counted : Opcode.isCounted ins.opcode = true → SkipFault env ins (.tooManyOps env.limits.maxOps)
  | disabled : Opcode.isDisabled ins.opcode = true → env.limits.disabledPolicy = .always →
    SkipFault env ins (.disabled ins.opcode)
  | separator : ins.opcode = Opcode.codeSeparator → env.version = .base →
    env.flags.has .constScriptCode = true → SkipFault env ins .codeSeparator

theorem skipFault_of_accept (hm : m.executing = false)
    (h : accept env m here.instruction = .error fault) : SkipFault env here.instruction fault := by
  cases refusal_of_accept h with
  | cut hcut => exact .cut hcut
  | element hlong => exact .element hlong
  | counted hcounted _ => exact .counted hcounted
  | separator hopcode hversion hconst => exact .separator hopcode hversion hconst
  | disabled hdisabled hwhen =>
    refine .disabled hdisabled (hwhen.resolve_left ?_)
    simp [hm]

/-- In a branch that is not taken, an instruction that follows the nesting changes at most the
branches inside of it. -/
theorem perform_skip (hbase : base.allTaken = false)
    (hm : m.branches = inner ++ base) (hnest : nest inner.length here.opcode = some depth) :
    (∃ inner' : Branches, inner'.length = depth ∧
      ∀ env, perform env m here = pure { m with branches := inner' ++ base }) ∨
    (here.opcode = Opcode.verIf ∨ here.opcode = Opcode.verNotIf) ∧
      ∀ env, perform env m here = Run.fail (.invalidOpcode here.opcode) := by
  have hexec : m.executing = false := by
    simp [executing, hm, hbase]
  cases hflow : Opcode.isConditional here.opcode with
  | false =>
    rw [nest_of_not_conditional hflow] at hnest
    refine .inl ⟨inner, Option.some.inj hnest, fun env => ?_⟩
    rw [perform_skipped hexec hflow, ← hm]
  | true =>
    rcases (Opcode.isConditional_iff _).mp hflow with ho | ho | ho | ho
    · rw [nest_of_opens ho] at hnest
      refine .inl ⟨false :: inner, Option.some.inj hnest, fun env => ?_⟩
      rw [perform_open ho, openIf_skipped hexec, hm]
      rfl
    · exact .inr ⟨ho, fun env => perform_ver ho⟩
    · rw [ho] at hnest
      cases inner with
      | nil => cases hnest
      | cons taken inner =>
        have hswitch := switchBranch_eq_ok_iff.mpr ⟨taken, inner ++ base, hm, rfl⟩
        refine .inl ⟨(!taken) :: inner, Option.some.inj hnest, fun env => ?_⟩
        rw [perform_otherwise ho, hswitch]
        rfl
    · rw [ho] at hnest
      cases inner with
      | nil => cases hnest
      | cons taken inner =>
        have hclose := closeIf_eq_ok_iff.mpr ⟨taken, inner ++ base, hm, rfl⟩
        refine .inl ⟨inner, Option.some.inj hnest, fun env => ?_⟩
        rw [perform_endIf ho, hclose]
        rfl

theorem step_skip_ok (hbase : base.allTaken = false)
    (hm : m.branches = inner ++ base) (hnest : nest inner.length here.opcode = some depth)
    (h : (step env m here).result = .ok m') :
    ∃ inner' : Branches, inner'.length = depth ∧
      m' = { m.count here.instruction with branches := inner' ++ base } := by
  obtain ⟨-, hperform, -⟩ := step_ok_iff.mp h
  have hcount : (m.count here.instruction).branches = inner ++ base := hm
  rcases perform_skip hbase hcount hnest with ⟨inner', hlength, hskip⟩ | ⟨-, hskip⟩
  · rw [hskip] at hperform
    cases hperform
    exact ⟨inner', hlength, rfl⟩
  · rw [hskip] at hperform
    cases hperform

theorem step_skip_error (hbase : base.allTaken = false)
    (hm : m.branches = inner ++ base) (hnest : nest inner.length here.opcode = some depth)
    (h : (step env m here).result = .error fault) :
    SkipFault env here.instruction fault ∨
      env.limits.maxStackSize < m.stack.length + m.alt.length ∧
        fault = .tallStack (m.stack.length + m.alt.length) env.limits.maxStackSize := by
  have hexec : m.executing = false := by
    simp [executing, hm, hbase]
  have hcount : (m.count here.instruction).branches = inner ++ base := hm
  rcases step_error h with h | ⟨-, h⟩
  · exact .inl (skipFault_of_accept hexec h)
  · rcases perform_skip hbase hcount hnest with ⟨inner', -, hskip⟩ | ⟨hver, hskip⟩ <;>
      rw [hskip] at h
    · rcases h with h | ⟨m', h, htall⟩
      · cases h
      · cases h
        exact .inr htall
    · rcases h with h | ⟨m', h, -⟩
      · cases h
        exact .inl (.ver hver)
      · cases h

theorem steps_skip_ok (hbase : base.allTaken = false) (hm : m.branches = inner ++ base)
    (hnest : openAfter inner.length xs = some depth)
    (h : (xs.foldlM (step env) m).result = .ok m') :
    ∃ inner' : Branches, inner'.length = depth ∧ m' = { m with
      branches := inner' ++ base
      ops := m.ops + xs.countP (Opcode.isCounted ·.opcode) } := by
  -- `base` stays below whatever the instructions open, and holds a branch not taken.
  induction xs generalizing m inner with
  | nil =>
    cases h
    exact ⟨inner, Option.some.inj hnest, by simp [← hm]⟩
  | cons here xs ih =>
    obtain ⟨next, hnext, h⟩ := Run.foldlM_cons_ok.mp h
    obtain ⟨depth', hhere, hnest⟩ := Option.bind_eq_some_iff.mp (openAfter_cons ▸ hnest)
    obtain ⟨inner', hlength, rfl⟩ := step_skip_ok hbase hm hhere hnext
    obtain ⟨inner'', hlength', rfl⟩ := ih rfl (hlength ▸ hnest) h
    refine ⟨inner'', hlength', ?_⟩
    have hops : (m.count here.instruction).ops + xs.countP (Opcode.isCounted ·.opcode) =
        m.ops + (here :: xs).countP (Opcode.isCounted ·.opcode) := by
      simp only [count, List.countP_cons, Located.opcode]
      split <;> omega
    simp [count, ← hops]

theorem steps_skip_error (hbase : base.allTaken = false) (hm : m.branches = inner ++ base)
    (hnest : openAfter inner.length xs = some depth)
    (h : (xs.foldlM (step env) m).result = .error fault) :
    (∃ here ∈ xs, SkipFault env here.instruction fault) ∨
      env.limits.maxStackSize < m.stack.length + m.alt.length ∧
        fault = .tallStack (m.stack.length + m.alt.length) env.limits.maxStackSize := by
  induction xs generalizing m inner with
  | nil => cases h
  | cons here xs ih =>
    obtain ⟨depth', hhere, hnest⟩ := Option.bind_eq_some_iff.mp (openAfter_cons ▸ hnest)
    rcases Run.foldlM_cons_error.mp h with h | ⟨next, hnext, h⟩
    · exact (step_skip_error hbase hm hhere h).imp_left fun hfault => ⟨here, by simp, hfault⟩
    · obtain ⟨inner', hlength, rfl⟩ := step_skip_ok hbase hm hhere hnext
      refine (ih rfl (hlength ▸ hnest) h).imp_left ?_
      rintro ⟨later, hmem, hfault⟩
      exact ⟨later, List.mem_cons_of_mem _ hmem, hfault⟩

theorem step_quiet (env : Env) (hbase : base.allTaken = false)
    (hm : m.branches = inner ++ base) (hnest : nest inner.length here.opcode = some depth) :
    ∃ result, ∀ context, step { env with context } m here =
      ⟨[.step env.script here false m.stack.length], result⟩ := by
  have hexec : m.executing = false := by
    simp [executing, hm, hbase]
  have hstep (context) : step { env with context } m here =
      Run.emit (.step env.script here false m.stack.length) >>= fun _ =>
        Run.ofExcept (accept env m here.instruction) >>= fun m =>
          perform { env with context } m here >>= fun m => Run.ofExcept (checkHeight env m) := by
    rw [← hexec]
    rfl
  cases haccept : accept env m here.instruction with
  | error fault =>
    refine ⟨.error fault, fun context => ?_⟩
    rw [hstep, haccept]
    rfl
  | ok counted =>
    obtain ⟨-, rfl⟩ := accept_eq_ok_iff.mp haccept
    have hcount : (m.count here.instruction).branches = inner ++ base := hm
    rcases perform_skip hbase hcount hnest with ⟨inner', -, hskip⟩ | ⟨-, hskip⟩
    · refine ⟨checkHeight env { m.count here.instruction with branches := inner' ++ base },
        fun context => ?_⟩
      simp only [hstep, haccept, Run.ofExcept_ok_bind, hskip]
      rfl
    · refine ⟨.error (.invalidOpcode here.opcode), fun context => ?_⟩
      simp only [hstep, haccept, Run.ofExcept_ok_bind, hskip]
      rfl

theorem steps_quiet (hbase : base.allTaken = false) (hm : m.branches = inner ++ base)
    (hnest : openAfter inner.length xs = some depth) :
    (∀ context, xs.foldlM (step { env with context }) m = xs.foldlM (step env) m) ∧
      ∀ event ∈ (xs.foldlM (step env) m).events,
        ∃ here height, event = .step env.script here false height := by
  induction xs generalizing m inner with
  | nil => exact ⟨fun context => rfl, fun event hevent => by cases hevent⟩
  | cons here xs ih =>
    obtain ⟨depth', hhere, hnest⟩ := Option.bind_eq_some_iff.mp (openAfter_cons ▸ hnest)
    obtain ⟨result, hquiet⟩ := step_quiet env hbase hm hhere
    have hstep : step env m here = ⟨[.step env.script here false m.stack.length], result⟩ :=
      hquiet env.context
    cases result with
    | error fault =>
      simp only [List.foldlM_cons, hquiet, Run.bind_eq, Run.andThen]
      refine ⟨fun context => trivial, fun event hevent => ?_⟩
      exact ⟨here, _, List.mem_singleton.mp hevent⟩
    | ok next =>
      obtain ⟨inner', hlength, hnext⟩ := step_skip_ok hbase hm hhere (congrArg Run.result hstep)
      have hbranches : next.branches = inner' ++ base := by
        rw [hnext]
      obtain ⟨hcontext, hevents⟩ := ih hbranches (hlength ▸ hnest)
      simp only [List.foldlM_cons, hquiet, Run.bind_eq, Run.andThen, hcontext]
      refine ⟨fun context => trivial, fun event hevent => ?_⟩
      rcases List.mem_cons.mp hevent with hevent | hevent
      · exact ⟨here, _, hevent⟩
      · exact hevents event hevent

end Skipping

section Taking

variable {inner base : Branches} {depth ops : Nat}

theorem perform_within (hm : m.branches = inner ++ true :: base) (hops : ops ≤ m.ops)
    (hnest : nest inner.length here.opcode = some depth)
    (h : (perform env m here).result = .ok m') :
    ∃ (inner' : Branches) (ops' : Nat), inner'.length = depth ∧
      m'.branches = inner' ++ true :: base ∧ ops' ≤ m'.ops ∧
      (perform env (m.rebase (inner ++ base) ops) here).result =
        .ok (m'.rebase (inner' ++ base) ops') := by
  have htaken : Branches.allTaken (inner ++ base) = m.branches.allTaken := by
    simp [hm]
  -- Only the conditional opcodes can reach the branch, and the nesting keeps them off it.
  cases hflow : Opcode.isConditional here.opcode with
  | false =>
    obtain ⟨hbranches, -, hrebase⟩ := perform_rebase hflow h
    obtain ⟨ops', hops', hresult⟩ := hrebase _ ops htaken hops
    rw [nest_of_not_conditional hflow] at hnest
    exact ⟨inner, ops', Option.some.inj hnest, hbranches.trans hm, hops', hresult⟩
  | true =>
    rcases (Opcode.isConditional_iff _).mp hflow with ho | ho | ho | ho
    · rw [perform_open ho] at h ⊢
      rw [nest_of_opens ho] at hnest
      obtain ⟨taken, hbranches, hsame, hrebase⟩ := openIf_rebase h
      refine ⟨taken :: inner, ops, Option.some.inj hnest, ?_, hsame ▸ hops, hrebase _ ops htaken⟩
      rw [hbranches, hm]
      rfl
    · rw [perform_ver ho] at h
      cases h
    · rw [ho] at hnest
      cases inner with
      | nil => cases hnest
      | cons taken inner =>
        rw [perform_otherwise ho] at h ⊢
        obtain ⟨taken, branches, hbranches, rfl⟩ := switchBranch_eq_ok_iff.mp h
        cases hm.symm.trans hbranches
        exact ⟨(!taken) :: inner, ops, Option.some.inj hnest, rfl, hops,
          switchBranch_eq_ok_iff.mpr ⟨taken, inner ++ base, rfl, rfl⟩⟩
    · rw [ho] at hnest
      cases inner with
      | nil => cases hnest
      | cons taken inner =>
        rw [perform_endIf ho] at h ⊢
        obtain ⟨taken, branches, hbranches, rfl⟩ := closeIf_eq_ok_iff.mp h
        cases hm.symm.trans hbranches
        exact ⟨inner, ops, Option.some.inj hnest, rfl, hops,
          closeIf_eq_ok_iff.mpr ⟨taken, inner ++ base, rfl, rfl⟩⟩

theorem step_within (hm : m.branches = inner ++ true :: base) (hops : ops ≤ m.ops)
    (hnest : nest inner.length here.opcode = some depth)
    (h : (step env m here).result = .ok m') :
    ∃ (inner' : Branches) (ops' : Nat), inner'.length = depth ∧
      m'.branches = inner' ++ true :: base ∧ ops' ≤ m'.ops ∧
      (step env (m.rebase (inner ++ base) ops) here).result =
        .ok (m'.rebase (inner' ++ base) ops') := by
  obtain ⟨haccepts, hperform, hheight⟩ := step_ok_iff.mp h
  have hexec : (m.rebase (inner ++ base) ops).executing = m.executing := by
    simp [executing, rebase, hm]
  have hcounted : (m.count here.instruction).branches = inner ++ true :: base := hm
  have hfewer : ((m.rebase (inner ++ base) ops).count here.instruction).ops ≤
      (m.count here.instruction).ops := by
    dsimp only [count, rebase]
    split <;> omega
  obtain ⟨inner', ops', hlength, hbranches, hops', hwithin⟩ :=
    perform_within hcounted hfewer hnest hperform
  refine ⟨inner', ops', hlength, hbranches, hops', step_ok_iff.mpr ⟨?_, hwithin, hheight⟩⟩
  rw [hexec]
  exact haccepts.of_fewer hops

theorem steps_within (hm : m.branches = inner ++ true :: base) (hops : ops ≤ m.ops)
    (hnest : openAfter inner.length xs = some depth)
    (h : (xs.foldlM (step env) m).result = .ok m') :
    ∃ (inner' : Branches) (ops' : Nat), inner'.length = depth ∧
      m'.branches = inner' ++ true :: base ∧ ops' ≤ m'.ops ∧
      (xs.foldlM (step env) (m.rebase (inner ++ base) ops)).result =
        .ok (m'.rebase (inner' ++ base) ops') := by
  induction xs generalizing m inner ops with
  | nil =>
    cases h
    exact ⟨inner, ops, Option.some.inj hnest, hm, hops, rfl⟩
  | cons here xs ih =>
    obtain ⟨next, hnext, h⟩ := Run.foldlM_cons_ok.mp h
    obtain ⟨depth', hhere, hnest⟩ := Option.bind_eq_some_iff.mp (openAfter_cons ▸ hnest)
    obtain ⟨inner', ops', hlength, hbranches, hops', hstep⟩ := step_within hm hops hhere hnext
    obtain ⟨inner'', ops'', hlength', hbranches', hops'', hsteps⟩ :=
      ih hbranches hops' (hlength ▸ hnest) h
    exact ⟨inner'', ops'', hlength', hbranches', hops'',
      Run.foldlM_cons_ok.mpr ⟨_, hstep, hsteps⟩⟩

end Taking

section Alternatives

variable {base : Branches} {taken : Bool} {ops : Nat} {block : List Located}

theorem block_skipped (hblock : WellNested block) (hm : m.executing = false)
    (h : (block.foldlM (step env) m).result = .ok m') :
    m' = { m with ops := m.ops + block.countP (Opcode.isCounted ·.opcode) } := by
  have hbranches : m.branches = [] ++ m.branches := rfl
  obtain ⟨inner, hlength, rfl⟩ := steps_skip_ok hm hbranches hblock h
  rw [List.length_eq_zero_iff.mp hlength]
  rfl

/-- A block of a conditional runs as it would outside of the conditional, or not at all. -/
theorem block_alternative (hblock : WellNested block) (hm : m.branches = taken :: base)
    (hops : ops ≤ m.ops) (h : (block.foldlM (step env) m).result = .ok m') :
    m'.branches = taken :: base ∧ ∃ ops' ≤ m'.ops,
      ((if taken then block else []).foldlM (step env) (m.rebase base ops)).result =
        .ok (m'.rebase base ops') := by
  cases taken with
  | false =>
    have hexec : m.executing = false := by
      simp [executing, hm]
    obtain rfl := block_skipped hblock hexec h
    exact ⟨hm, ops, Nat.le_trans hops (Nat.le_add_right _ _), rfl⟩
  | true =>
    have hinside : m.branches = [] ++ true :: base := hm
    obtain ⟨inner, ops', hlength, hbranches, hops', hwithin⟩ := steps_within hinside hops hblock h
    cases List.length_eq_zero_iff.mp hlength
    exact ⟨hbranches, ops', hops', hwithin⟩

theorem step_open (c : Conditional) (hm : m.executing = true)
    (h : (step env m c.opener).result = .ok m') : ∃ condition rest, m.stack = condition :: rest ∧
      m'.branches = (condition.isTrue != c.negated) :: m.branches ∧ m.ops ≤ m'.ops ∧
      m'.rebase m.branches m.ops = { m with stack := rest } := by
  obtain ⟨-, hperform, -⟩ := step_ok_iff.mp h
  rw [perform_open c.opens] at hperform
  have hcounted : (m.count c.opener.instruction).executing = true := hm
  obtain ⟨condition, rest, hstack, rfl⟩ := openIf_reached hcounted hperform
  exact ⟨condition, rest, hstack, rfl, m.le_count _, rfl⟩

theorem step_switch (hopcode : here.opcode = Opcode.otherwise) (hm : m.branches = taken :: base)
    (h : (step env m here).result = .ok m') : m'.branches = (!taken) :: base ∧ m.ops ≤ m'.ops ∧
      m'.rebase base ops = m.rebase base ops := by
  obtain ⟨-, hperform, -⟩ := step_ok_iff.mp h
  rw [perform_otherwise hopcode] at hperform
  obtain ⟨_, _, hbranches, rfl⟩ := switchBranch_eq_ok_iff.mp hperform
  cases hm.symm.trans hbranches
  exact ⟨rfl, m.le_count _, rfl⟩

theorem step_close (hopcode : here.opcode = Opcode.endIf) (hm : m.branches = taken :: base)
    (h : (step env m here).result = .ok m') : m'.branches = base ∧
      m'.rebase base ops = m.rebase base ops := by
  obtain ⟨-, hperform, -⟩ := step_ok_iff.mp h
  rw [perform_endIf hopcode] at hperform
  obtain ⟨_, _, hbranches, rfl⟩ := closeIf_eq_ok_iff.mp hperform
  cases hm.symm.trans hbranches
  exact ⟨rfl, rfl⟩

theorem blocks_alternate {first : List Located} {others : List (Located × List Located)}
    (hfirst : WellNested first) (hothers : ∀ other ∈ others, WellNested other.2)
    (hswitches : ∀ other ∈ others, other.1.opcode = Opcode.otherwise)
    (hm : m.branches = taken :: base) (hops : ops ≤ m.ops)
    (h : ((first ++ others.flatMap fun other => other.1 :: other.2).foldlM (step env) m).result =
      .ok m') :
    ∃ taken' ops', m'.branches = taken' :: base ∧ ops' ≤ m'.ops ∧
      ((alternate taken (first :: others.map (·.2))).foldlM (step env) (m.rebase base ops)).result =
        .ok (m'.rebase base ops') := by
  -- Two runs side by side: one inside the conditional, where each switch negates `taken`, and
  -- one outside of it, which sees the taken blocks only and has counted no more operations.
  induction others generalizing first m taken ops with
  | nil =>
    rw [List.flatMap_nil, List.append_nil] at h
    obtain ⟨hbranches, ops', hops', hblock⟩ := block_alternative hfirst hm hops h
    refine ⟨taken, ops', hbranches, hops', ?_⟩
    rw [alternate_cons]
    exact Run.foldlM_append_ok.mpr ⟨_, hblock, rfl⟩
  | cons other others ih =>
    obtain ⟨middle, hmiddle, h⟩ := Run.foldlM_append_ok.mp h
    obtain ⟨next, hnext, h⟩ := Run.foldlM_cons_ok.mp h
    obtain ⟨hbranches, ops', hops', hblock⟩ := block_alternative hfirst hm hops hmiddle
    obtain ⟨hswitched, hcounted, hsame⟩ :=
      step_switch (hswitches other List.mem_cons_self) hbranches hnext
    obtain ⟨taken', ops'', hbranches', hops'', hrest⟩ :=
      ih (hothers other List.mem_cons_self) (fun later hlater => hothers later (.tail _ hlater))
        (fun later hlater => hswitches later (.tail _ hlater)) hswitched
        (Nat.le_trans hops' hcounted) h
    rw [hsame] at hrest
    refine ⟨taken', ops'', hbranches', hops'', ?_⟩
    rw [alternate_cons]
    exact Run.foldlM_append_ok.mpr ⟨_, hblock, hrest⟩

theorem conditional_alternates (c : Conditional) (hm : m.executing = true)
    (h : (c.located.foldlM (step env) m).result = .ok m') :
    m'.branches = m.branches ∧ ∃ condition rest ops, m.stack = condition :: rest ∧
      ((alternate (condition.isTrue != c.negated) c.blocks).foldlM (step env)
        { m with stack := rest }).result = .ok { m' with ops } := by
  obtain ⟨opened, hopen, h⟩ := Run.foldlM_cons_ok.mp h
  obtain ⟨last, hblocks, h⟩ := Run.foldlM_append_ok.mp h
  obtain ⟨closed, hclose, h⟩ := Run.foldlM_cons_ok.mp h
  cases h
  obtain ⟨condition, rest, hstack, hopened, hops, hstart⟩ := step_open c hm hopen
  obtain ⟨taken, ops', hlast, -, halternate⟩ :=
    blocks_alternate c.first_nested c.others_nested c.switches hopened hops hblocks
  obtain ⟨hbranches, hsame⟩ := step_close c.closes hlast hclose
  refine ⟨hbranches, condition, rest, ops', hstack, ?_⟩
  rw [hstart, ← hsame] at halternate
  rw [hbranches]
  exact halternate

end Alternatives

/-- A conditional that succeeds has the effect of its blocks of even index alone, or of those
of odd index, as its condition says. A block that is skipped, here or in an enclosing
conditional, changes nothing but the count of operations, checks no signature and does not
look at the context, and fails only where an instruction would fail unexecuted. -/
theorem conditional_runs_alternate_blocks (env : Env) (m : Machine) :
    (∀ (c : Conditional) (m' : Machine), m.executing = true →
      (c.located.foldlM (step env) m).result = .ok m' →
      m'.branches = m.branches ∧ ∃ condition rest ops, m.stack = condition :: rest ∧
        ((alternate (condition.isTrue != c.negated) c.blocks).foldlM (step env)
          { m with stack := rest }).result = .ok { m' with ops }) ∧
    ∀ block, WellNested block → m.executing = false →
      (∀ m', (block.foldlM (step env) m).result = .ok m' →
        m' = { m with ops := m.ops + block.countP (Opcode.isCounted ·.opcode) }) ∧
      (∀ context, block.foldlM (step { env with context }) m = block.foldlM (step env) m) ∧
      (∀ event ∈ (block.foldlM (step env) m).events,
        ∃ here height, event = .step env.script here false height) ∧
      (∀ fault, (block.foldlM (step env) m).result = .error fault →
        (∃ here ∈ block, SkipFault env here.instruction fault) ∨
        env.limits.maxStackSize < m.stack.length + m.alt.length ∧
          fault = .tallStack (m.stack.length + m.alt.length) env.limits.maxStackSize) := by
  refine ⟨fun c m' hm h => conditional_alternates c hm h, fun block hblock hm => ?_⟩
  have hbranches : m.branches = [] ++ m.branches := rfl
  obtain ⟨hcontext, hevents⟩ := steps_quiet hm hbranches hblock
  refine ⟨?_, hcontext, hevents, ?_⟩
  · intro m' h
    exact block_skipped hblock hm h
  · intro fault h
    exact steps_skip_error hm hbranches hblock h

/-- Three blocks, each of which pushes its own number. -/
def threeWay : Conditional where
  opener := ⟨.ofOpcode Opcode.notIf, [0x51, 0x67, 0x52, 0x67, 0x53, 0x68]⟩
  first := [⟨.ofOpcode 0x51, [0x67, 0x52, 0x67, 0x53, 0x68]⟩]
  others := [
    (⟨.ofOpcode Opcode.otherwise, [0x52, 0x67, 0x53, 0x68]⟩,
      [⟨.ofOpcode 0x52, [0x67, 0x53, 0x68]⟩]),
    (⟨.ofOpcode Opcode.otherwise, [0x53, 0x68]⟩, [⟨.ofOpcode 0x53, [0x68]⟩])]
  closer := ⟨.ofOpcode Opcode.endIf, []⟩
  opens := by decide
  switches := by decide
  closes := by decide
  first_nested := by decide
  others_nested := by decide

/-- On a false condition the negated conditional runs its first and its third block. -/
theorem threeWay_runs_first_and_third :
    let env : Env := { flags := Flags.empty, script := [0x64, 0x51, 0x67, 0x52, 0x67, 0x53, 0x68] }
    let m : Machine := { stack := [[], [7]], code := env.script }
    threeWay.located = env.script.located ∧
    (threeWay.located.foldlM (step env) m).result =
      .ok { m with stack := [[3], [1], [7]], ops := 4 } ∧
    ∃ ops, ((alternate true threeWay.blocks).foldlM (step env) { m with stack := [[7]] }).result =
      .ok { m with stack := [[3], [1], [7]], ops } := by
  intro env m
  have hok : (threeWay.located.foldlM (step env) m).result =
      .ok { m with stack := [[3], [1], [7]], ops := 4 } := by
    decide +kernel
  refine ⟨by decide +kernel, hok, ?_⟩
  obtain ⟨-, condition, rest, ops, hstack, hblocks⟩ :=
    (conditional_runs_alternate_blocks env m).1 threeWay _ rfl hok
  cases hstack
  exact ⟨ops, hblocks⟩

end Machine

end CoinScript
