import CoinScript.Run

/-! # Outcomes of composed runs

A composed run yields a value when each part does, and fails where its first failing part
does. Two runs are compared by `Preserved`: whatever value the first yields, the second
yields as well, so that only faults of the first may turn into something else.
-/
namespace CoinScript

variable {α β ε : Type}

instance decidableEqOk [DecidableEq α] (x : Except ε α) (a : α) : Decidable (x = .ok a) :=
  match x with
  | .ok b => decidable_of_iff (b = a) (by simp)
  | .error _ => .isFalse nofun

section Sequence

theorem bind_eq_ok {x : Except ε α} {f : α → Except ε β} {b : β} :
    x >>= f = .ok b ↔ ∃ a, x = .ok a ∧ f a = .ok b := by
  cases x with
  | error e => simp [bind, Except.bind]
  | ok a => simp [bind, Except.bind]

theorem bind_eq_error {x : Except ε α} {f : α → Except ε β} {e : ε} :
    x >>= f = .error e ↔ x = .error e ∨ ∃ a, x = .ok a ∧ f a = .error e := by
  cases x with
  | error e => simp [bind, Except.bind]
  | ok a => simp [bind, Except.bind]

@[simp] theorem pure_eq_ok {a b : α} : (pure a : Except ε α) = .ok b ↔ a = b := by
  simp [pure, Except.pure]

end Sequence

namespace Run

theorem bind_ok {run : Run α} {next : α → Run β} {b : β} :
    (run >>= next).result = .ok b ↔ ∃ a, run.result = .ok a ∧ (next a).result = .ok b := by
  rw [result_bind, bind_eq_ok]

theorem bind_error {run : Run α} {next : α → Run β} {fault : Fault} :
    (run >>= next).result = .error fault ↔
      run.result = .error fault ∨ ∃ a, run.result = .ok a ∧ (next a).result = .error fault := by
  rw [result_bind, bind_eq_error]

theorem result_bind_of_ok {run : Run α} {next : α → Run β} {a : α} (h : run.result = .ok a) :
    (run >>= next).result = (next a).result := by
  rw [result_bind, h]
  rfl

@[simp] theorem result_emit (event : Event) : (emit event).result = .ok () := rfl

@[simp] theorem ofExcept_ok_bind (a : α) (next : α → Run β) :
    ofExcept (.ok a) >>= next = next a := rfl

@[simp] theorem result_ite (c : Prop) [Decidable c] (x y : Run α) :
    (if c then x else y).result = if c then x.result else y.result := by
  split <;> rfl

@[simp] theorem foldlM_cons_ok {step : β → α → Run β} {b c : β} {x : α} {xs : List α} :
    ((x :: xs).foldlM step b).result = .ok c ↔
      ∃ b', (step b x).result = .ok b' ∧ (xs.foldlM step b').result = .ok c := by
  rw [List.foldlM_cons, bind_ok]

theorem foldlM_append_ok {step : β → α → Run β} {b c : β} {xs ys : List α} :
    ((xs ++ ys).foldlM step b).result = .ok c ↔
      ∃ b', (xs.foldlM step b).result = .ok b' ∧ (ys.foldlM step b').result = .ok c := by
  rw [List.foldlM_append, bind_ok]

theorem foldlM_cons_error {step : β → α → Run β} {b : β} {x : α} {xs : List α} {fault : Fault} :
    ((x :: xs).foldlM step b).result = .error fault ↔ (step b x).result = .error fault ∨
      ∃ b', (step b x).result = .ok b' ∧ (xs.foldlM step b').result = .error fault := by
  rw [List.foldlM_cons, bind_error]

end Run

/-- A value of the first outcome is a value of the second. -/
def Preserved (first second : Except Fault α) : Prop := ∀ a, first = .ok a → second = .ok a

namespace Preserved

theorem refl (x : Except Fault α) : Preserved x x := fun _ h => h

theorem error (fault : Fault) (x : Except Fault α) : Preserved (.error fault) x := by
  intro a h
  cases h

theorem bind {x y : Except Fault α} {f g : α → Except Fault β} (hxy : Preserved x y)
    (hfg : ∀ a, Preserved (f a) (g a)) : Preserved (x >>= f) (y >>= g) := by
  intro b h
  obtain ⟨a, ha, hb⟩ := bind_eq_ok.mp h
  exact bind_eq_ok.mpr ⟨a, hxy a ha, hfg a b hb⟩

theorem runBind {x y : Run α} {f g : α → Run β} (hxy : Preserved x.result y.result)
    (hfg : ∀ a, Preserved (f a).result (g a).result) :
    Preserved (x >>= f).result (y >>= g).result := by
  rw [Run.result_bind, Run.result_bind]
  exact bind hxy hfg

/-- A check that fails in fewer cases. -/
theorem guard {c d : Prop} [Decidable c] [Decidable d] {e e' : Fault} {x y : Except Fault α}
    (hdc : d → c) (hxy : Preserved x y) :
    Preserved (if c then .error e else x) (if d then .error e' else y) := by
  by_cases hc : c
  · rw [if_pos hc]
    exact error e _
  · rw [if_neg hc, if_neg (mt hdc hc)]
    exact hxy

/-- One case distinction on both sides. -/
theorem branch {c : Prop} [Decidable c] {x x' y y' : Except Fault α}
    (hx : c → Preserved x x') (hy : ¬c → Preserved y y') :
    Preserved (if c then x else y) (if c then x' else y') := by
  by_cases hc : c
  · rw [if_pos hc, if_pos hc]
    exact hx hc
  · rw [if_neg hc, if_neg hc]
    exact hy hc

theorem foldlM {first second : β → α → Except Fault β}
    (h : ∀ b a, Preserved (first b a) (second b a)) (xs : List α) (b : β) :
    Preserved (xs.foldlM first b) (xs.foldlM second b) := by
  induction xs generalizing b with
  | nil => exact refl _
  | cons x xs ih =>
    rw [List.foldlM_cons, List.foldlM_cons]
    exact bind (h b x) ih

theorem runFoldlM {first second : β → α → Run β}
    (h : ∀ b a, Preserved (first b a).result (second b a).result) (xs : List α) (b : β) :
    Preserved (xs.foldlM first b).result (xs.foldlM second b).result := by
  induction xs generalizing b with
  | nil => exact refl _
  | cons x xs ih =>
    rw [List.foldlM_cons, List.foldlM_cons]
    exact runBind (h b x) ih

end Preserved

end CoinScript
