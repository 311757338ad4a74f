import CoinScript.Proofs.Nesting

/-! # Scripts that can succeed

A run that succeeds has seen every instruction of its script, those in branches not taken
included. So the script as a whole obeys every check that does not depend on the stack, and
its conditionals are well nested. A script that is not well nested fails for that reason,
unless another fault comes first.
-/
namespace CoinScript

/-- What an instruction has to satisfy wherever it stands. -/
structure Env.Admits (env : Env) (ins : Instruction) : Prop where
  whole : ins.cut = false
  element : ins.data.length ≤ env.limits.maxElementSize
  notVerIf : ins.opcode ≠ Opcode.verIf
  notVerNotIf : ins.opcode ≠ Opcode.verNotIf
  enabled : env.limits.disabledPolicy = .always → Opcode.isDisabled ins.opcode = false
  notSeparator : env.version = .base → env.flags.has .constScriptCode = true →
    ins.opcode ≠ Opcode.codeSeparator

/-- The checks that a script passes or fails whatever the stack and the branches taken. -/
structure StaticallyValid (env : Env) : Prop where
  size : env.script.length ≤ env.limits.maxScriptSize
  admits : ∀ ins ∈ env.script.instructions, env.Admits ins
  ops : env.script.instructions.countP (Opcode.isCounted ·.opcode) ≤ env.limits.maxOps
  nested : WellNested env.script.located

namespace Machine

variable {env : Env} {m m' : Machine} {here : Located} {xs : List Located} {stack : Stack}

theorem step_admits (h : (step env m here).result = .ok m') : env.Admits here.instruction := by
  obtain ⟨haccepts, hperform, -⟩ := step_ok_iff.mp h
  have hver : ¬(here.instruction.opcode = Opcode.verIf ∨
      here.instruction.opcode = Opcode.verNotIf) := by
    intro hver
    rw [perform_ver hver] at hperform
    cases hperform
  rw [not_or] at hver
  refine ⟨haccepts.whole, haccepts.element, hver.1, hver.2, fun hpolicy => ?_,
    fun hversion hconst => ?_⟩
  · exact Bool.eq_false_iff.mpr fun hdisabled => (haccepts.enabled hdisabled).2 hpolicy
  · intro hseparator
    simp [haccepts.separator hseparator hversion] at hconst

theorem steps_admit (h : (xs.foldlM (step env) m).result = .ok m') :
    ∀ here ∈ xs, env.Admits here.instruction := by
  induction xs generalizing m with
  | nil => simp
  | cons first xs ih =>
    obtain ⟨next, hnext, h⟩ := Run.foldlM_cons_ok.mp h
    intro here hmem
    rcases List.mem_cons.mp hmem with rfl | hmem
    · exact step_admits hnext
    · exact ih h here hmem

theorem steps_ops (h : (xs.foldlM (step env) m).result = .ok m') :
    xs.countP (Opcode.isCounted ·.opcode) = 0 ∨
      m.ops + xs.countP (Opcode.isCounted ·.opcode) ≤ env.limits.maxOps := by
  induction xs generalizing m with
  | nil => simp
  | cons here xs ih =>
    obtain ⟨next, hnext, h⟩ := Run.foldlM_cons_ok.mp h
    have hlimit := (step_ok_iff.mp hnext).1.counted
    have hcount := (step_nest hnext).2
    have hrest := ih h
    simp only [count] at hcount
    simp only [List.countP_cons]
    change Opcode.isCounted here.opcode = true → _ at hlimit
    grind [Located.opcode]

theorem run_of_size (hsize : env.script.length ≤ env.limits.maxScriptSize) (stack : Stack) :
    (run env stack).result =
      ((env.script.located.foldlM (step env) (start env stack)).result >>= fun m =>
        if m.branches = [] then .ok m else .error .openConditional) := by
  unfold run
  rw [Run.result_ite, if_neg (Nat.not_lt.mpr hsize), Run.result_bind]
  simp only [Run.result_ite, Run.result_pure, Run.result_fail]

theorem run_of_ok (h : (run env stack).result = .ok m) :
    env.script.length ≤ env.limits.maxScriptSize ∧
    (env.script.located.foldlM (step env) (start env stack)).result = .ok m ∧ m.branches = [] := by
  by_cases hsize : env.limits.maxScriptSize < env.script.length
  · simp [run, hsize] at h
  · have hfits := Nat.not_lt.mp hsize
    rw [run_of_size hfits] at h
    obtain ⟨last, hlast, hend⟩ := bind_eq_ok.mp h
    split at hend
    · next hclosed =>
      cases hend
      exact ⟨hfits, hlast, hclosed⟩
    · cases hend

theorem staticallyValid_of_run (h : (run env stack).result = .ok m) : StaticallyValid env := by
  obtain ⟨hsize, hsteps, hclosed⟩ := run_of_ok h
  have hadmit := steps_admit hsteps
  have hops := steps_ops hsteps
  have hnested := steps_nest hsteps
  rw [hclosed] at hnested
  refine ⟨hsize, ?_, ?_, hnested⟩
  · intro ins hins
    obtain ⟨here, hhere, rfl⟩ := List.mem_map.mp hins
    exact hadmit here hhere
  · rw [Script.instructions, List.countP_map]
    change env.script.located.countP (Opcode.isCounted ·.opcode) ≤ _
    simp only [start, Nat.zero_add] at hops
    omega

/-- A fault that stops a run before the nesting can: the script is too long, an instruction
fails up to which the nesting is in order, or the one that breaks the nesting is refused. -/
inductive ComesFirst (env : Env) (stack : Stack) : Fault → Prop
  | size : env.limits.maxScriptSize < env.script.length →
    ComesFirst env stack (.longScript env.script.length env.limits.maxScriptSize)
  | before {before here after m fault} : env.script.located = before ++ here :: after →
    (before.foldlM (step env) (start env stack)).result = .ok m →
    openAfter 0 (before ++ [here]) ≠ none → (step env m here).result = .error fault →
    ComesFirst env stack fault
  | refused {before here after m fault} : env.script.located = before ++ here :: after →
    (before.foldlM (step env) (start env stack)).result = .ok m →
    openAfter 0 (before ++ [here]) = none → accept env m here.instruction = .error fault →
    ComesFirst env stack fault

theorem steps_error {fault : Fault} (h : (xs.foldlM (step env) m).result = .error fault) :
    ∃ before here after m', xs = before ++ here :: after ∧
      (before.foldlM (step env) m).result = .ok m' ∧ (step env m' here).result = .error fault := by
  induction xs generalizing m with
  | nil => cases h
  | cons first xs ih =>
    rcases Run.foldlM_cons_error.mp h with h | ⟨next, hnext, h⟩
    · exact ⟨[], first, xs, m, rfl, rfl, h⟩
    · obtain ⟨before, here, after, m', rfl, hbefore, hstep⟩ := ih h
      exact ⟨first :: before, here, after, m', rfl,
        Run.foldlM_cons_ok.mpr ⟨next, hnext, hbefore⟩, hstep⟩

theorem openAfter_steps {before : List Located} (h : (before.foldlM (step env) m).result = .ok m')
    (here : Located) :
    openAfter m.branches.length (before ++ [here]) = nest m'.branches.length here.opcode := by
  rw [openAfter_append, steps_nest h, Option.bind_some, openAfter_cons]
  cases nest m'.branches.length here.opcode <;> rfl

theorem unbalanced_of_not_wellNested (h : ¬WellNested env.script.located) (stack : Stack) :
    ∃ fault, (run env stack).result = .error fault ∧
      (fault.code = .unbalancedConditional ∨ ComesFirst env stack fault) := by
  by_cases hsize : env.limits.maxScriptSize < env.script.length
  · refine ⟨_, ?_, .inr (.size hsize)⟩
    simp [run, hsize]
  · rw [run_of_size (Nat.not_lt.mp hsize)]
    cases hsteps : (env.script.located.foldlM (step env) (start env stack)).result with
    | ok m =>
      -- All instructions succeed, so the nesting is broken by a conditional left open.
      have hopen : m.branches ≠ [] := by
        intro hclosed
        have hnested := steps_nest hsteps
        rw [hclosed] at hnested
        exact h hnested
      exact ⟨.openConditional, if_neg hopen, .inl rfl⟩
    | error fault =>
      refine ⟨fault, rfl, ?_⟩
      obtain ⟨before, here, after, m', hsplit, hbefore, hstep⟩ := steps_error hsteps
      have hafter := openAfter_steps hbefore here
      by_cases hbreaks : nest m'.branches.length here.opcode = none
      · rcases step_stray hbreaks hstep with hrefused | hunbalanced
        · exact .inr (.refused hsplit hbefore (hafter.trans hbreaks) hrefused)
        · exact .inl hunbalanced
      · exact .inr (.before hsplit hbefore (hafter ▸ hbreaks) hstep)

/-- A script that executes successfully is valid as a whole, whatever branches were taken. At
every point of a run the branches are as many as the conditionals opened and not closed, so a
script that is not well nested is refused for that, unless another fault comes first. -/
theorem execute_ok_staticallyValid (env : Env) (stack : Stack) :
    (∀ final, (env.execute stack).result = .ok final → StaticallyValid env) ∧
    (∀ before after m, env.script.located = before ++ after →
      (before.foldlM (step env) (start env stack)).result = .ok m →
      (m.branches.length : Int) = before.countP (Opcode.opens ·.opcode) -
        before.countP (·.opcode = Opcode.endIf)) ∧
    (¬WellNested env.script.located → ∃ fault, (env.execute stack).result = .error fault ∧
      (fault.code = .unbalancedConditional ∨ ComesFirst env stack fault)) := by
  refine ⟨?_, ?_, ?_⟩
  · intro final h
    obtain ⟨m, hrun, -⟩ := Run.bind_ok.mp h
    exact staticallyValid_of_run hrun
  · intro before after m _ hsteps
    have hcounts := openAfter_counts (steps_nest hsteps)
    simp only [start, List.length_nil] at hcounts
    omega
  · intro hbroken
    obtain ⟨fault, hrun, hcause⟩ := unbalanced_of_not_wellNested hbroken stack
    exact ⟨fault, Run.bind_error.mpr (.inl hrun), hcause⟩

/-- A script whose second branch is skipped is valid in that branch too. -/
theorem execute_ok_staticallyValid_skipped :
    let env : Env := { flags := Flags.empty, script := [0x51, 0x63, 0x52, 0x67, 0x53, 0x68] }
    (env.execute []).result = .ok [[2]] ∧ StaticallyValid env := by
  intro env
  have hok : (env.execute []).result = .ok [[2]] := by
    decide +kernel
  exact ⟨hok, (execute_ok_staticallyValid env []).1 _ hok⟩

end Machine

end CoinScript
