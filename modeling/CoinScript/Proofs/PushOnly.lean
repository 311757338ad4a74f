import CoinScript.Proofs.OutputScript

/-! # Scripts that only push

A script that only pushes leaves the values that its instructions stand for, one on top of the
other. Whether it gets there depends on the limits and on the rule for minimal pushes, and on
neither the transaction nor the version. What is written to push given items is such a script,
and stands for just these items.
-/
namespace CoinScript

/-- The opcode before the small integers, which passes for a push but never executes. -/
def Opcode.reserved : UInt8 := 0x50

namespace Instruction

/-- The value that a push or a small integer stands for: its data, the byte `81` for minus one,
and the number itself as a byte for the others. -/
def denoted (ins : Instruction) : Bytes :=
  if ins.isPush then ins.data
  else if ins.opcode = Opcode.negate1 then [0x81]
  else [ins.opcode - Opcode.one + 1]

variable {ins : Instruction} {opcode : UInt8} {data : Bytes}

theorem denoted_of_push (h : ins.isPush = true) : ins.denoted = ins.data := by
  simp [denoted, h]

theorem isConstant_iff : ins.isConstant = true ↔ ins.cut = false ∧ ins.opcode ≤ Opcode.sixteen := by
  simp [isConstant]

/-- Among the constant opcodes that carry no data, only the reserved one does not push its
value. -/
theorem smallInt_of_constant (hpush : Opcode.isPush opcode = false)
    (hconstant : opcode ≤ Opcode.sixteen) (hreserved : opcode ≠ Opcode.reserved) :
    ∃ n, Operation.ofOpcode opcode = .constant n ∧
      Number.encode n = (ofOpcode opcode).denoted := by
  have hall : ∀ opcode, Opcode.isPush opcode = false → opcode ≤ Opcode.sixteen →
      opcode ≠ Opcode.reserved →
      Operation.ofOpcode opcode = .constant ((Opcode.smallInt? opcode).getD 0) ∧
        Number.encode ((Opcode.smallInt? opcode).getD 0) = (ofOpcode opcode).denoted :=
    Opcode.forall_byte (by decide +kernel)
  exact ⟨_, hall opcode hpush hconstant hreserved⟩

section Smallest

theorem ofPush_cases (data : Bytes) :
    (∃ opcode, ofPush data = ofOpcode opcode ∧ Opcode.isPush opcode = false ∧
      opcode ≤ Opcode.sixteen ∧ opcode ≠ Opcode.reserved ∧ (ofOpcode opcode).denoted = data) ∨
    ofPush data = ofData data ∧ (ofData data).isMinimal = true := by
  match data with
  | [] => exact .inr ⟨rfl, rfl⟩
  | [b] =>
    have hsmall : ∀ b : UInt8, 1 ≤ b ∧ b ≤ 16 →
        Opcode.isPush (Opcode.one + b - 1) = false ∧ Opcode.one + b - 1 ≤ Opcode.sixteen ∧
          Opcode.one + b - 1 ≠ Opcode.reserved ∧
          (ofOpcode (Opcode.one + b - 1)).denoted = [b] :=
      Opcode.forall_byte (by decide +kernel)
    by_cases hb : 1 ≤ b ∧ b ≤ 16
    · exact .inl ⟨_, if_pos hb, hsmall b hb⟩
    · by_cases hnegate : b = 0x81
      · rw [hnegate]
        exact .inl ⟨Opcode.negate1, rfl, by decide⟩
      · have hpush : (ofData [b]).isPush = true := isPush_ofData [b]
        refine .inr ⟨(if_neg hb).trans (if_neg hnegate), ?_⟩
        simp only [isMinimal, hpush, Bool.not_true, Bool.false_eq_true, ↓reduceIte]
        simp [ofData, hb, hnegate]
  | first :: second :: rest => exact .inr ⟨rfl, isMinimal_ofData (by simp)⟩

theorem ofPush_of_long (h : 2 ^ 32 ≤ data.length) :
    ofPush data = { opcode := Opcode.pushData4, data } := by
  match data, h with
  | first :: second :: rest, hlong =>
    have hcount : rest.length + 1 + 1 = (first :: second :: rest).length := rfl
    simp only [ofPush, ofData]
    rw [if_neg (by omega), if_neg (by omega), if_neg (by omega)]

theorem wellFormed_ofPush (h : data.length < 2 ^ 32) : (ofPush data).WellFormed := by
  obtain ⟨opcode, hins, hpush, -⟩ | ⟨hins, -⟩ := ofPush_cases data
  · rw [hins]
    exact wellFormed_ofOpcode hpush
  · rw [hins]
    exact wellFormed_ofData h

theorem isConstant_ofPush (data : Bytes) : (ofPush data).isConstant = true := by
  obtain ⟨opcode, hins, -, hconstant, -⟩ | ⟨hins, -⟩ := ofPush_cases data
  · rw [hins]
    exact isConstant_iff.mpr ⟨rfl, hconstant⟩
  · rw [hins]
    exact isConstant_ofData data

theorem isMinimal_ofPush (data : Bytes) : (ofPush data).isMinimal = true := by
  obtain ⟨opcode, hins, hpush, -⟩ | ⟨hins, hminimal⟩ := ofPush_cases data
  · have hbare : (ofOpcode opcode).isPush = false := hpush
    simp [hins, isMinimal, hbare]
  · rw [hins]
    exact hminimal

theorem denoted_ofPush (data : Bytes) : (ofPush data).denoted = data := by
  obtain ⟨opcode, hins, -, -, -, hdenoted⟩ | ⟨hins, -⟩ := ofPush_cases data
  · rw [hins, hdenoted]
  · rw [hins, denoted_of_push (isPush_ofData data)]
    rfl

theorem length_data_ofPush (data : Bytes) : (ofPush data).data.length ≤ data.length := by
  obtain ⟨opcode, hins, -⟩ | ⟨hins, -⟩ := ofPush_cases data
  · rw [hins]
    exact Nat.zero_le _
  · rw [hins]
    exact Nat.le_refl _

theorem opcode_ofPush_ne_reserved (data : Bytes) : (ofPush data).opcode ≠ Opcode.reserved := by
  obtain ⟨opcode, hins, -, -, hreserved, -⟩ | ⟨hins, -⟩ := ofPush_cases data
  · rw [hins]
    exact hreserved
  · intro heq
    have hpush := isPush_ofData data
    rw [← hins, isPush, heq] at hpush
    exact absurd hpush (by decide)

end Smallest

end Instruction

namespace Script

/-- The script that pushes the items in turn, each in the smallest way. -/
def ofItems (items : List Bytes) : Script := ofInstructions (items.map Instruction.ofPush)

variable {script : Script} {items : List Bytes} {ins : Instruction}

theorem instructions_eq_nil_iff : script.instructions = [] ↔ script = [] := by
  cases script with
  | nil => simp [instructions, located]
  | cons opcode rest => simp [instructions, located]

theorem sequence_of_wellFormed {inss : List Instruction} (h : ∀ ins ∈ inss, ins.WellFormed) :
    Sequence inss := by
  induction inss with
  | nil => exact .nil
  | cons ins inss ih =>
    obtain ⟨hins, hinss⟩ := List.forall_mem_cons.mp h
    exact .cons hins (ih hinss)

theorem instructions_ofItems (hstated : ∀ item ∈ items, item.length < 2 ^ 32) :
    (ofItems items).instructions = items.map Instruction.ofPush := by
  apply instructions_ofInstructions
  apply sequence_of_wellFormed
  rw [List.forall_mem_map]
  exact fun item hitem => Instruction.wellFormed_ofPush (hstated item hitem)

theorem forall_instructions_ofItems {P : Instruction → Prop}
    (hstated : ∀ item ∈ items, item.length < 2 ^ 32) (h : ∀ item ∈ items, P (.ofPush item)) :
    ∀ ins ∈ (ofItems items).instructions, P ins := by
  rw [instructions_ofItems hstated, List.forall_mem_map]
  exact h

theorem isPushOnly_ofItems (hstated : ∀ item ∈ items, item.length < 2 ^ 32) :
    (ofItems items).isPushOnly = true := by
  rw [isPushOnly, List.all_eq_true]
  exact forall_instructions_ofItems hstated fun item _ => Instruction.isConstant_ofPush item

theorem isMinimal_ofItems (hstated : ∀ item ∈ items, item.length < 2 ^ 32) :
    ∀ ins ∈ (ofItems items).instructions, ins.isMinimal = true :=
  forall_instructions_ofItems hstated fun item _ => Instruction.isMinimal_ofPush item

theorem denoted_ofItems (hstated : ∀ item ∈ items, item.length < 2 ^ 32) :
    (ofItems items).instructions.map (·.denoted) = items := by
  rw [instructions_ofItems hstated, List.map_map]
  exact List.map_id'' Instruction.denoted_ofPush items

theorem instructions_encode_append (h : ins.WellFormed) (rest : Script) :
    instructions (ins.encode ++ rest) = ins :: instructions rest := by
  rw [instructions, located_of_wellFormed h]
  rfl

/-- The length of an item that no push can state is written modulo `2 ^ 32`, so it is a part of the
item that is read. -/
theorem encode_ofPush_of_long {item : Bytes} (h : 2 ^ 32 ≤ item.length) :
    ∃ part : Instruction, part.WellFormed ∧ part.isPush = true ∧ part.data.length < item.length ∧
      ∃ rest, (Instruction.ofPush item).encode = part.encode ++ rest := by
  let part : Instruction :=
    { opcode := Opcode.pushData4, data := item.take (item.length % 256 ^ 4) }
  have hshort : item.length % 256 ^ 4 < 256 ^ 4 := Nat.mod_lt _ (by decide)
  have hlength : part.data.length = item.length % 256 ^ 4 := List.length_take_of_le (by omega)
  have hwellFormed : part.WellFormed :=
    ⟨rfl, fun hdirect => absurd hdirect (by decide : ¬Opcode.pushData4 ≤ 75),
      fun _ _ => hlength ▸ hshort, nofun⟩
  refine ⟨part, hwellFormed, rfl, by omega, item.drop (item.length % 256 ^ 4), ?_⟩
  have hpart : part.encode =
      Opcode.pushData4 :: (Bytes.ofNatLE 4 part.data.length ++ part.data) := rfl
  rw [Instruction.ofPush_of_long h, hpart, hlength, Bytes.ofNatLE_mod, List.cons_append,
    List.append_assoc, List.take_append_drop]
  rfl

theorem denoted_ofItems_iff : (ofItems items).instructions.map (·.denoted) = items ↔
    ∀ item ∈ items, item.length < 2 ^ 32 := by
  refine ⟨fun h => ?_, denoted_ofItems⟩
  induction items with
  | nil => exact List.forall_mem_nil _
  | cons item items ih =>
    have hbytes : ofItems (item :: items) =
        (Instruction.ofPush item).encode ++ ofItems items := rfl
    rw [hbytes] at h
    rw [List.forall_mem_cons]
    by_cases hitem : item.length < 2 ^ 32
    · rw [instructions_encode_append (Instruction.wellFormed_ofPush hitem), List.map_cons] at h
      exact ⟨hitem, ih (List.cons.inj h).2⟩
    · obtain ⟨part, hpart, hpush, hlength, rest, hencode⟩ :=
        encode_ofPush_of_long (Nat.not_lt.mp hitem)
      rw [hencode, List.append_assoc, instructions_encode_append hpart, List.map_cons] at h
      have hread := (List.cons.inj h).1
      rw [Instruction.denoted_of_push hpush] at hread
      exact absurd hlength (by simp [hread])

end Script

namespace Machine

variable {env : Env} {m m' : Machine} {ins : Instruction} {s t : Stack}

def pushAll (m : Machine) (items : List Bytes) : Machine :=
  { m with stack := items.reverse ++ m.stack }

def height (m : Machine) : Nat := m.stack.length + m.alt.length

theorem pushAll_nil (m : Machine) : m.pushAll [] = m := rfl

theorem pushAll_cons (m : Machine) (item : Bytes) (items : List Bytes) :
    m.pushAll (item :: items) = (m.pushAll [item]).pushAll items := by
  simp [pushAll]

theorem height_pushAll (m : Machine) (items : List Bytes) :
    (m.pushAll items).height = m.height + items.length := by
  simp only [height, pushAll, List.length_append, List.length_reverse]
  omega

theorem items_pushAll (m : Machine) (items : List Bytes) :
    (m.pushAll items).stack.items = m.stack.items ++ items := by
  simp [pushAll, Stack.items]

/-- What a push or a small integer has to satisfy to be executed. -/
structure Pushable (env : Env) (ins : Instruction) : Prop where
  element : ins.data.length ≤ env.limits.maxElementSize
  minimal : env.flags.has .minimalData = true → ins.isMinimal = true
  unreserved : ins.opcode ≠ Opcode.reserved

section Steps

/-- Pushes and small integers are not counted, and nothing but their size is held against
them. -/
theorem accepts_constant_iff (h : ins.isConstant = true) {executing : Bool} {ops : Nat} :
    Accepts env executing ops ins ↔ ins.data.length ≤ env.limits.maxElementSize := by
  obtain ⟨hwhole, hconstant⟩ := Instruction.isConstant_iff.mp h
  have hall : ∀ opcode, opcode ≤ Opcode.sixteen → Opcode.isCounted opcode = false ∧
      Opcode.isDisabled opcode = false ∧ opcode ≠ Opcode.codeSeparator :=
    Opcode.forall_byte (by decide +kernel)
  obtain ⟨hcounted, hdisabled, hseparator⟩ := hall ins.opcode hconstant
  constructor
  · intro haccepts
    exact haccepts.element
  · intro helement
    exact ⟨hwhole, helement, by simp [hcounted], by simp [hdisabled], by simp [hseparator]⟩

theorem count_constant (h : ins.isConstant = true) (m : Machine) : m.count ins = m := by
  have hcounted : Opcode.isCounted ins.opcode = false := by
    simpa [Opcode.isCounted] using (Instruction.isConstant_iff.mp h).2
  simp [count, hcounted]

theorem perform_constant (h : ins.isConstant = true) (hexec : m.executing = true)
    (rest : Script) : (perform env m ⟨ins, rest⟩).result = .ok m' ↔
      (env.flags.has .minimalData = true → ins.isMinimal = true) ∧ ins.opcode ≠ Opcode.reserved ∧
        m' = m.pushAll [ins.denoted] := by
  cases hpush : ins.isPush with
  | true =>
    have hreserved : ins.opcode ≠ Opcode.reserved := by
      intro heq
      rw [Instruction.isPush, heq] at hpush
      exact absurd hpush (by decide)
    simp only [perform, hexec, hpush, Bool.and_self, ↓reduceIte, Run.result_ofExcept,
      pushData_eq_ok_iff, Instruction.denoted_of_push hpush, Env.requireMinimal, ne_eq, hreserved,
      not_false_eq_true, true_and]
    rfl
  | false =>
    have hminimal : ins.isMinimal = true := by simp [Instruction.isMinimal, hpush]
    have hact : perform env m ⟨ins, rest⟩ = act env m ⟨ins, rest⟩ := by
      simp [perform, hexec, hpush]
    rw [hact]
    by_cases hreserved : ins.opcode = Opcode.reserved
    · have hinvalid : Operation.ofOpcode Opcode.reserved = .invalid := by decide
      simp [act, hreserved, hinvalid]
    · obtain ⟨n, hop, hvalue⟩ := Instruction.smallInt_of_constant hpush
        (Instruction.isConstant_iff.mp h).2 hreserved
      have hdenoted : ins.denoted = Number.encode n := by
        have hbare : (Instruction.ofOpcode ins.opcode).isPush = false := hpush
        rw [hvalue]
        simp only [Instruction.denoted, hpush, hbare]
        rfl
      simp only [act, hop, Run.result_pure, Except.ok.injEq, hminimal, hdenoted, implies_true,
        ne_eq, hreserved, not_false_eq_true, true_and]
      exact eq_comm

theorem step_constant (h : ins.isConstant = true) (hexec : m.executing = true) (rest : Script) :
    (step env m ⟨ins, rest⟩).result = .ok m' ↔ Pushable env ins ∧
      m.height + 1 ≤ env.limits.maxStackSize ∧ m' = m.pushAll [ins.denoted] := by
  have hheight : (m.pushAll [ins.denoted]).height = m.height + 1 := height_pushAll m _
  rw [step_ok_iff, accepts_constant_iff h, count_constant h, perform_constant h hexec]
  constructor
  · rintro ⟨helement, ⟨hminimal, hreserved, rfl⟩, hroom⟩
    exact ⟨⟨helement, hminimal, hreserved⟩, Nat.le_trans (Nat.le_of_eq hheight.symm) hroom, rfl⟩
  · rintro ⟨⟨helement, hminimal, hreserved⟩, hroom, rfl⟩
    exact ⟨helement, ⟨hminimal, hreserved, rfl⟩, Nat.le_trans (Nat.le_of_eq hheight) hroom⟩

theorem steps_constant {xs : List Located} (inss : List Instruction)
    (hinss : inss = xs.map (·.instruction)) (h : ∀ ins ∈ inss, ins.isConstant = true)
    (hexec : m.executing = true) : (xs.foldlM (step env) m).result = .ok m' ↔
      (∀ ins ∈ inss, Pushable env ins) ∧
      (inss ≠ [] → m.height + inss.length ≤ env.limits.maxStackSize) ∧
        m' = m.pushAll (inss.map (·.denoted)) := by
  induction xs generalizing m inss with
  | nil =>
    subst hinss
    simp [pushAll_nil, eq_comm]
  | cons here xs ih =>
    subst hinss
    rw [List.map_cons] at h ⊢
    have hstep (next : Machine) : (step env m here).result = .ok next ↔ _ :=
      step_constant (h _ List.mem_cons_self) hexec here.rest
    have hsteps := ih (m := m.pushAll [here.instruction.denoted]) _ rfl
      (fun other hother => h other (List.mem_cons_of_mem _ hother)) hexec
    generalize xs.map (·.instruction) = inss at hsteps ⊢
    rw [height_pushAll, List.length_singleton] at hsteps
    rw [Run.foldlM_cons_ok, List.map_cons, pushAll_cons, List.forall_mem_cons, List.length_cons]
    constructor
    · rintro ⟨next, hnext, hlast⟩
      obtain ⟨hhere, hroom, rfl⟩ := (hstep next).mp hnext
      obtain ⟨hrest, hheight, hm'⟩ := hsteps.mp hlast
      refine ⟨⟨hhere, hrest⟩, fun _ => ?_, hm'⟩
      -- The stack is at its highest after the last push, so no other height has to be tested.
      cases inss with
      | nil => exact hroom
      | cons other inss =>
        have htop := hheight (List.cons_ne_nil other inss)
        omega
    · rintro ⟨⟨hhere, hrest⟩, hheight, hm'⟩
      have htop := hheight (List.cons_ne_nil here.instruction inss)
      refine ⟨_, (hstep _).mpr ⟨hhere, by omega, rfl⟩, hsteps.mpr ⟨hrest, fun _ => ?_, hm'⟩⟩
      omega

end Steps

section Scripts

/-- The limits and rules within which a script that only pushes executes on a stack of the given
height. -/
structure PushesWithin (env : Env) (height : Nat) : Prop where
  size : env.script.length ≤ env.limits.maxScriptSize
  unreserved : ∀ ins ∈ env.script.instructions, ins.opcode ≠ Opcode.reserved
  element : ∀ ins ∈ env.script.instructions, ins.data.length ≤ env.limits.maxElementSize
  minimal : env.flags.has .minimalData = true →
    ∀ ins ∈ env.script.instructions, ins.isMinimal = true
  room : env.script ≠ [] → height + env.script.instructions.length ≤ env.limits.maxStackSize

theorem execute_pushOnly_iff (h : env.script.isPushOnly = true) :
    (env.execute s).result = .ok t ↔
      PushesWithin env s.length ∧ t.items = s.items ++ env.script.instructions.map (·.denoted) := by
  have hsteps (m : Machine) :
      (env.script.located.foldlM (step env) (start env s)).result = .ok m ↔ _ :=
    steps_constant env.script.instructions rfl (List.all_eq_true.mp h) rfl
  have hempty : env.script ≠ [] ↔ env.script.instructions ≠ [] :=
    not_congr Script.instructions_eq_nil_iff.symm
  have hitems := items_pushAll (start env s) (env.script.instructions.map (·.denoted))
  rw [Env.execute, Run.bind_ok]
  constructor
  · rintro ⟨m, hrun, ht⟩
    cases ht
    obtain ⟨hsize, hfold, -⟩ := run_of_ok hrun
    obtain ⟨hall, hroom, rfl⟩ := (hsteps m).mp hfold
    exact ⟨⟨hsize, fun ins hins => (hall ins hins).unreserved,
      fun ins hins => (hall ins hins).element, fun hrule ins hins => (hall ins hins).minimal hrule,
      fun hne => hroom (hempty.mp hne)⟩, hitems⟩
  · rintro ⟨hwithin, ht⟩
    have hall : ∀ ins ∈ env.script.instructions, Pushable env ins := fun ins hins =>
      ⟨hwithin.element ins hins, fun hrule => hwithin.minimal hrule ins hins,
        hwithin.unreserved ins hins⟩
    have hfold := (hsteps _).mpr ⟨hall, fun hne => hwithin.room (hempty.mpr hne), rfl⟩
    have hrun := run_of_size hwithin.size s
    rw [hfold] at hrun
    have hstack : _ = t := List.reverse_injective (hitems.trans ht.symm)
    exact ⟨_, hrun, congrArg Except.ok hstack⟩

theorem pushesWithin_ofItems {items : List Bytes} (hscript : env.script = Script.ofItems items)
    (hstated : ∀ item ∈ items, item.length < 2 ^ 32)
    (hsize : env.script.length ≤ env.limits.maxScriptSize)
    (helement : ∀ item ∈ items, item.length ≤ env.limits.maxElementSize) {height : Nat}
    (hroom : items ≠ [] → height + items.length ≤ env.limits.maxStackSize) :
    PushesWithin env height := by
  refine ⟨hsize, ?_, ?_, fun _ => ?_, fun hne => ?_⟩
  · rw [hscript]
    exact Script.forall_instructions_ofItems hstated fun item _ =>
      Instruction.opcode_ofPush_ne_reserved item
  · rw [hscript]
    exact Script.forall_instructions_ofItems hstated fun item hitem =>
      Nat.le_trans (Instruction.length_data_ofPush item) (helement item hitem)
  · rw [hscript]
    exact Script.isMinimal_ofItems hstated
  · rw [hscript, Script.instructions_ofItems hstated, List.length_map]
    apply hroom
    rintro rfl
    exact hne hscript

/-- A script that only pushes executes exactly within its limits, whatever the transaction and
the version, and leaves the values of its instructions on top of what was there. The script that
is written to push given items, none longer than the widest form of a push can state, is such a
script: all its pushes are minimal, and within the limits it leaves the items. With a longer item
among them, what is written stands for other values. -/
theorem pushOnly_leaves_denoted_values (env : Env) (s : Stack) :
    (env.script.isPushOnly = true → ∀ t, (env.execute s).result = .ok t ↔
      PushesWithin env s.length ∧
        t.items = s.items ++ env.script.instructions.map (·.denoted)) ∧
    (∀ items, (Script.ofItems items).instructions.map (·.denoted) = items ↔
      ∀ item ∈ items, item.length ≤ Instruction.PushForm.pushData4.maxLength) ∧
    ∀ items, env.script = Script.ofItems items →
      (∀ item ∈ items, item.length ≤ Instruction.PushForm.pushData4.maxLength) →
      env.script.isPushOnly = true ∧
      (∀ ins ∈ env.script.instructions, ins.isMinimal = true) ∧
      (env.script.length ≤ env.limits.maxScriptSize →
        (∀ item ∈ items, item.length ≤ env.limits.maxElementSize) →
        (items ≠ [] → s.length + items.length ≤ env.limits.maxStackSize) →
        (env.execute s).result = .ok (.ofItems (s.items ++ items))) := by
  have hwidth (item : Bytes) : item.length ≤ Instruction.PushForm.pushData4.maxLength ↔
      item.length < 2 ^ 32 := Nat.lt_succ_iff.symm
  simp only [hwidth]
  refine ⟨fun hpushes t => execute_pushOnly_iff hpushes, fun _ => Script.denoted_ofItems_iff,
    fun items hscript hstated => ?_⟩
  have hpushes : env.script.isPushOnly = true := by
    rw [hscript]
    exact Script.isPushOnly_ofItems hstated
  refine ⟨hpushes, ?_, fun hsize helement hroom => ?_⟩
  · rw [hscript]
    exact Script.isMinimal_ofItems hstated
  · have hwithin := pushesWithin_ofItems hscript hstated hsize helement hroom
    refine (execute_pushOnly_iff hpushes).mpr ⟨hwithin, ?_⟩
    rw [hscript, Script.denoted_ofItems hstated, Stack.items_ofItems]

/-- A byte, minus one, sixteen and the empty item fill the room above one item exactly. -/
theorem pushOnly_leaves_denoted_values_full :
    let env : Env :=
      { limits := { maxStackSize := 5 }, flags := Flags.ofRules [.minimalData],
        script := [0x01, 0xaa, 0x4f, 0x60, 0x00] }
    env.script.isPushOnly = true ∧ env.script = Script.ofItems [[0xaa], [0x81], [0x10], []] ∧
    PushesWithin env 1 ∧
    (env.execute [[7]]).result = .ok [[], [0x10], [0x81], [0xaa], [7]] := by
  intro env
  have hscript : env.script = Script.ofItems [[0xaa], [0x81], [0x10], []] := by decide
  obtain ⟨hvalues, -, hitems⟩ := pushOnly_leaves_denoted_values env [[7]]
  obtain ⟨hpushes, -, hexecute⟩ := hitems _ hscript (by decide)
  have hresult := hexecute (by decide) (by decide) (by decide)
  exact ⟨hpushes, hscript, ((hvalues hpushes _).mp hresult).1, hresult⟩

end Scripts

end Machine

end CoinScript
