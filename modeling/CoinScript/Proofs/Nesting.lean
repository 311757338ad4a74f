import CoinScript.Proofs.Step

/-! # Nesting of conditionals

The number of open conditionals can be followed on the opcodes alone. It agrees with the
number of branches that a machine has open at every point of every run, whatever is on the
stack and whichever branches are taken.
-/
namespace CoinScript

def Located.opcode (here : Located) : UInt8 := here.instruction.opcode

/-- The conditionals that are open after an opcode which finds `depth` of them open. An
opcode that needs an open conditional has to find one. -/
def nest (depth : Nat) (opcode : UInt8) : Option Nat :=
  if Opcode.opens opcode then some (depth + 1)
  else if opcode = Opcode.otherwise then if depth = 0 then none else some depth
  else if opcode = Opcode.endIf then if depth = 0 then none else some (depth - 1)
  else some depth

def openAfter (depth : Nat) (xs : List Located) : Option Nat :=
  xs.foldlM (fun depth here => nest depth here.opcode) depth

/-- Every conditional that is opened is closed, and nothing switches or closes a conditional
that was not opened. -/
def WellNested (xs : List Located) : Prop := openAfter 0 xs = some 0

instance (xs : List Located) : Decidable (WellNested xs) :=
  inferInstanceAs (Decidable (openAfter 0 xs = some 0))

section Depth

variable {depth depth' : Nat} {opcode : UInt8} {here : Located} {xs ys : List Located}

@[simp] theorem openAfter_nil : openAfter depth [] = some depth := rfl

theorem openAfter_cons :
    openAfter depth (here :: xs) = (nest depth here.opcode).bind fun next => openAfter next xs :=
  rfl

theorem openAfter_append :
    openAfter depth (xs ++ ys) = (openAfter depth xs).bind fun next => openAfter next ys := by
  simp only [openAfter, List.foldlM_append]
  rfl

theorem nest_of_not_conditional (h : Opcode.isConditional opcode = false) (depth : Nat) :
    nest depth opcode = some depth := by
  have hcases := mt (Opcode.isConditional_iff opcode).mpr (Bool.not_eq_true _ ▸ h)
  simp only [not_or] at hcases
  simp [nest, hcases]

theorem nest_of_opens (h : Opcode.opens opcode = true) (depth : Nat) :
    nest depth opcode = some (depth + 1) := by
  simp [nest, h]

theorem nest_eq_none_iff :
    nest depth opcode = none ↔ depth = 0 ∧ (opcode = Opcode.otherwise ∨ opcode = Opcode.endIf) := by
  have hopens : Opcode.opens Opcode.otherwise = false ∧ Opcode.opens Opcode.endIf = false := by
    decide
  unfold nest
  grind

theorem nest_counts (h : nest depth opcode = some depth') :
    depth + (Opcode.opens opcode).toNat = depth' + (decide (opcode = Opcode.endIf)).toNat := by
  by_cases hend : opcode = Opcode.endIf
  · have hopens : Opcode.opens Opcode.endIf = false := by decide
    have hdistinct : Opcode.endIf ≠ Opcode.otherwise := by decide
    rw [hend] at h ⊢
    simp only [nest, hopens, Bool.false_eq_true, ↓reduceIte, hdistinct] at h
    grind
  · unfold nest at h
    grind

theorem openAfter_counts (h : openAfter depth xs = some depth') :
    depth + xs.countP (Opcode.opens ·.opcode) =
      depth' + xs.countP (·.opcode = Opcode.endIf) := by
  induction xs generalizing depth with
  | nil => simpa using h
  | cons here xs ih =>
    obtain ⟨next, hnext, h⟩ := Option.bind_eq_some_iff.mp (openAfter_cons ▸ h)
    have hhere := nest_counts hnext
    have hrest := ih h
    simp only [List.countP_cons]
    grind

end Depth

namespace Machine

variable {env : Env} {m m' : Machine} {here : Located} {xs : List Located} {fault : Fault}

theorem perform_nest (hflow : Opcode.isConditional here.opcode = true)
    (h : (perform env m here).result = .ok m') :
    nest m.branches.length here.opcode = some m'.branches.length ∧ m'.ops = m.ops := by
  rcases (Opcode.isConditional_iff _).mp hflow with ho | ho | ho | ho
  · rw [perform_open ho] at h
    obtain ⟨taken, hbranches, hops, -⟩ := openIf_rebase h
    rw [nest_of_opens ho, hbranches]
    exact ⟨rfl, hops⟩
  · rw [perform_ver ho] at h
    cases h
  · rw [perform_otherwise ho] at h
    obtain ⟨taken, branches, hbranches, rfl⟩ := switchBranch_eq_ok_iff.mp h
    rw [ho, hbranches]
    exact ⟨rfl, rfl⟩
  · rw [perform_endIf ho] at h
    obtain ⟨taken, branches, hbranches, rfl⟩ := closeIf_eq_ok_iff.mp h
    rw [ho, hbranches]
    exact ⟨rfl, rfl⟩

theorem step_nest (h : (step env m here).result = .ok m') :
    nest m.branches.length here.opcode = some m'.branches.length ∧
      (m.count here.instruction).ops ≤ m'.ops := by
  obtain ⟨-, hperform, -⟩ := step_ok_iff.mp h
  cases hflow : Opcode.isConditional here.opcode with
  | true =>
    obtain ⟨hnest, hops⟩ := perform_nest hflow hperform
    exact ⟨hnest, Nat.le_of_eq hops.symm⟩
  | false =>
    obtain ⟨hbranches, hops, -⟩ := perform_rebase hflow hperform
    rw [nest_of_not_conditional hflow, hbranches]
    exact ⟨rfl, hops⟩

theorem steps_nest (h : (xs.foldlM (step env) m).result = .ok m') :
    openAfter m.branches.length xs = some m'.branches.length := by
  induction xs generalizing m with
  | nil =>
    cases h
    rfl
  | cons here xs ih =>
    obtain ⟨next, hnext, h⟩ := Run.foldlM_cons_ok.mp h
    rw [openAfter_cons, (step_nest hnext).1]
    exact ih h

theorem perform_stray (hbranches : m.branches = [])
    (hopcode : here.opcode = Opcode.otherwise ∨ here.opcode = Opcode.endIf) :
    ∃ stray, (perform env m here).result = .error stray ∧ stray.code = .unbalancedConditional := by
  rcases hopcode with ho | ho
  · rw [perform_otherwise ho]
    exact ⟨.strayElse, by simp only [Run.result_ofExcept, switchBranch, hbranches]; rfl, rfl⟩
  · rw [perform_endIf ho]
    exact ⟨.strayEndIf, by simp only [Run.result_ofExcept, closeIf, hbranches]; rfl, rfl⟩

/-- Where nothing is open, an instruction that switches or closes a conditional is either not
accepted or fails for the nesting. -/
theorem step_stray (hnest : nest m.branches.length here.opcode = none)
    (h : (step env m here).result = .error fault) :
    accept env m here.instruction = .error fault ∨ fault.code = .unbalancedConditional := by
  obtain ⟨hempty, hopcode⟩ := nest_eq_none_iff.mp hnest
  have hfails : ∃ stray, (perform env (m.count here.instruction) here).result = .error stray ∧
      stray.code = .unbalancedConditional :=
    perform_stray (List.length_eq_zero_iff.mp hempty) hopcode
  obtain ⟨stray, hstray, hcode⟩ := hfails
  rcases step_error h with h | ⟨-, h | ⟨m', h, -⟩⟩
  · exact .inl h
  · cases hstray.symm.trans h
    exact .inr hcode
  · cases hstray.symm.trans h

end Machine

end CoinScript
