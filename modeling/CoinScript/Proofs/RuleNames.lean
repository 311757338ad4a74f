import CoinScript.Flags
import CoinScript.Proofs.TextForm
import Mathlib.Data.List.DropRight

/-! # Names of rules

A set of rules is written as the names of its rules with commas between them, and it is read from
such a list. What is written is read back, less the bits that no rule uses. Two lists that are put
together stand for the union of their sets, and a list that cannot be read is refused by its first
unknown name. So the set of a list depends only on which rules are named in it, and not on how the
list is spelled.
-/
namespace CoinScript

namespace Text

section Trimming

variable {front text back : List Char}

theorem trim_eq_rdropWhile (text : List Char) :
    trim text = (text.dropWhile isBlank).rdropWhile isBlank := rfl

theorem trim_blanks (hfront : ∀ c ∈ front, isBlank c = true)
    (hback : ∀ c ∈ back, isBlank c = true) : trim (front ++ text ++ back) = trim text := by
  have hreverse : ∀ c ∈ back.reverse, isBlank c = true := by simpa using hback
  rw [List.append_assoc, trim, List.dropWhile_append_of_pos hfront, List.dropWhile_append]
  split_ifs with hempty
  · have hnothing : back.dropWhile isBlank = [] := List.dropWhile_eq_nil_iff.mpr hback
    rw [trim, hnothing, List.isEmpty_iff.mp hempty]
  · rw [List.reverse_append, List.dropWhile_append_of_pos hreverse]
    rfl

theorem trim_append_trimmed {c : Char} (hc : isBlank c = false) (hne : text ≠ [])
    (htrimmed : trim text = text) : trim (c :: front ++ text) = c :: front ++ text := by
  have hlast : isBlank (text.getLast hne) = false := by
    have hnot := List.rdropWhile_last_not isBlank (text.dropWhile isBlank)
    rw [← trim_eq_rdropWhile] at hnot
    simp only [htrimmed] at hnot
    simpa using hnot hne
  rw [trim_eq_rdropWhile, List.cons_append, List.dropWhile_cons_of_neg (by simp [hc]),
    List.rdropWhile_eq_self_iff]
  intro hwhole
  simp [List.getLast_cons, hne, hlast]

end Trimming

section Entries

theorem entries_append (a b : List Char) : entries (a ++ ',' :: b) = entries a ++ entries b := by
  rw [entries, splitOn_append (by simp), List.map_append, List.filter_append]
  rfl

theorem entries_of_no_comma {text : List Char} (h : ',' ∉ text) :
    entries text = [trim text].filter (· ≠ []) := by
  have hsep : ∀ c ∈ text, (c == ',') = false := by
    intro c hc
    rw [beq_eq_false_iff_ne]
    rintro rfl
    exact h hc
  rw [entries, splitOn_of_no_sep hsep]
  rfl

theorem entries_of_trimmed {text : List Char} (hcomma : ',' ∉ text) (hne : text ≠ [])
    (htrimmed : trim text = text) : entries text = [text] := by
  rw [entries_of_no_comma hcomma, htrimmed]
  exact List.filter_cons_of_pos (decide_eq_true hne)

theorem entries_intercalate {names : List (List Char)}
    (h : ∀ name ∈ names, entries name = [name]) : entries ([','].intercalate names) = names := by
  induction names with
  | nil => rfl
  | cons name names ih =>
    obtain ⟨hname, hnames⟩ := List.forall_mem_cons.mp h
    cases names with
    | nil => rw [List.intercalate_singleton, hname]
    | cons next names =>
      rw [List.intercalate_cons_cons, List.append_assoc, List.singleton_append, entries_append,
        hname, ih hnames]
      rfl

end Entries

end Text

namespace Rule

def index (rule : Rule) : Nat := all.idxOf rule

theorem mem_all (rule : Rule) : rule ∈ all := by
  cases rule <;> decide

end Rule

namespace Flags

section Bits

variable {f g : Flags} {fs gs : List Flags} {i : Nat}

def bit (f : Flags) (i : Nat) : Bool := f.bits.toBitVec.getLsbD i

@[simp] theorem bit_empty (i : Nat) : empty.bit i = false := BitVec.getLsbD_zero

@[simp] theorem bit_union (f g : Flags) (i : Nat) : (f ∪ g).bit i = (f.bit i || g.bit i) :=
  BitVec.getLsbD_or

@[simp] theorem bit_inter (f g : Flags) (i : Nat) : (f ∩ g).bit i = (f.bit i && g.bit i) :=
  BitVec.getLsbD_and

theorem ext_bit (h : ∀ i, f.bit i = true ↔ g.bit i = true) : f = g := by
  obtain ⟨bits⟩ := f
  obtain ⟨bits'⟩ := g
  rw [Flags.mk.injEq, ← UInt32.toBitVec_inj]
  apply BitVec.eq_of_getLsbD_eq
  intro i _
  exact Bool.eq_iff_iff.mpr (h i)

def unions (fs : List Flags) : Flags := fs.foldl (· ∪ ·) empty

theorem bit_unions : (unions fs).bit i = true ↔ ∃ f ∈ fs, f.bit i = true := by
  have hfold (start : Flags) : (fs.foldl (· ∪ ·) start).bit i = true ↔
      start.bit i = true ∨ ∃ f ∈ fs, f.bit i = true := by
    induction fs generalizing start with
    | nil => simp
    | cons f fs ih => simp [ih, or_assoc]
  simp [unions, hfold]

theorem unions_append (fs gs : List Flags) : unions (fs ++ gs) = unions fs ∪ unions gs := by
  apply ext_bit
  intro i
  simp only [bit_unions, bit_union, Bool.or_eq_true, List.mem_append, or_and_right, exists_or]

theorem unions_congr (h : ∀ f, f ∈ fs ↔ f ∈ gs) : unions fs = unions gs := by
  apply ext_bit
  intro i
  simp only [bit_unions, h]

theorem bit_rule (rule : Rule) (i : Nat) : rule.flags.bit i = true ↔ i = rule.index := by
  have hmask : rule.mask.toBitVec = BitVec.twoPow 32 rule.index := by
    cases rule <;> decide
  have hindex : rule.index < 32 := by
    cases rule <;> decide
  rw [bit, Rule.flags, hmask, BitVec.getLsbD_twoPow]
  simp [hindex, eq_comm]

theorem has_iff_bit (f : Flags) (rule : Rule) : f.has rule = true ↔ f.bit rule.index = true := by
  have hincludes : f.has rule = true ↔ f ∩ rule.flags = rule.flags := by
    rw [has, includes, beq_iff_eq]
    exact (Flags.mk.injEq ..).symm.to_iff
  rw [hincludes]
  constructor
  · intro h
    have hbit : (f ∩ rule.flags).bit rule.index = true := by
      rw [h, bit_rule]
    rw [bit_inter, Bool.and_eq_true] at hbit
    exact hbit.1
  · intro h
    apply ext_bit
    intro i
    rw [bit_inter, Bool.and_eq_true, bit_rule]
    exact ⟨And.right, fun hi => ⟨hi ▸ h, hi⟩⟩

theorem bit_unions_rules {rules : List Rule} :
    (unions (rules.map Rule.flags)).bit i = true ↔ ∃ rule ∈ rules, i = rule.index := by
  simp [bit_unions, bit_rule]

theorem unions_rules (f : Flags) : unions (f.rules.map Rule.flags) = f ∩ ⟨0x1ffff⟩ := by
  have hall : (⟨0x1ffff⟩ : Flags) = unions (Rule.all.map Rule.flags) := by decide
  rw [hall]
  apply ext_bit
  intro i
  rw [bit_inter, Bool.and_eq_true, bit_unions_rules, bit_unions_rules]
  constructor
  · rintro ⟨rule, hrule, rfl⟩
    obtain ⟨hmem, hhas⟩ := List.mem_filter.mp hrule
    exact ⟨(has_iff_bit f rule).mp hhas, rule, hmem, rfl⟩
  · rintro ⟨hbit, rule, hmem, rfl⟩
    exact ⟨rule, List.mem_filter.mpr ⟨hmem, (has_iff_bit f rule).mpr hbit⟩, rfl⟩

end Bits

section Names

variable {name text a b : List Char} {f : Flags}

/-- A name without a leading `VERIFY_`. -/
def bareName (name : List Char) : List Char :=
  if "VERIFY_".toList.isPrefixOf name then name.drop 7 else name

/-- The set that a bare name stands for. -/
def ofBareName? (bare : List Char) : Option Flags :=
  if bare = "NONE".toList then some empty
  else (Rule.all.find? fun rule => rule.name.toList = bare).map Rule.flags

/-- The names without `VERIFY_`: those of the rules, and the one of the empty set. -/
def IsBareName (bare : List Char) : Prop :=
  bare = "NONE".toList ∨ ∃ rule : Rule, rule.name.toList = bare

def IsName (name : List Char) : Prop :=
  ∃ bare, IsBareName bare ∧ (name = bare ∨ name = "VERIFY_".toList ++ bare)

def bareNames (text : List Char) : List (List Char) := (Text.entries text).map bareName

theorem ofName_eq (name : List Char) : ofName name =
    match ofBareName? (bareName name) with
    | some f => .ok f
    | none => .error (.unknownRule (String.ofList name)) := by
  unfold ofName ofBareName? bareName
  dsimp only
  split_ifs
  · rfl
  · split <;> simp [*]
  · rfl
  · split <;> simp [*]

theorem ofName_eq_ok_iff : ofName name = .ok f ↔ ofBareName? (bareName name) = some f := by
  rw [ofName_eq]
  cases ofBareName? (bareName name) <;> simp

theorem ofName_error {fault : ParseFault} (h : ofName name = .error fault) :
    fault = .unknownRule (String.ofList name) := by
  rw [ofName_eq] at h
  split at h
  · cases h
  · cases h
    rfl

theorem bareName_verify (name : List Char) : bareName ("VERIFY_".toList ++ name) = name := by
  have hprefix : "VERIFY_".toList.isPrefixOf ("VERIFY_".toList ++ name) = true :=
    List.isPrefixOf_iff_prefix.mpr (List.prefix_append _ _)
  rw [bareName, if_pos hprefix]
  rfl

theorem bareName_of_bare (h : ¬"VERIFY_".toList <+: name) : bareName name = name :=
  if_neg fun hprefix => h (List.isPrefixOf_iff_prefix.mp hprefix)

theorem ofNames_eq (text : List Char) : ofNames text = do
    let fs ← (Text.entries text).mapM ofName
    return unions fs := by
  have hfold (names : List (List Char)) (start : Flags) :
      names.foldlM (fun f name => return f ∪ (← ofName name)) start = do
        let fs ← names.mapM ofName
        return fs.foldl (· ∪ ·) start := by
    induction names generalizing start with
    | nil => rfl
    | cons name names ih =>
      rw [List.foldlM_cons, List.mapM_cons]
      cases ofName name with
      | error fault => rfl
      | ok f =>
        refine (ih (start ∪ f)).trans ?_
        cases names.mapM ofName <;> rfl
  exact hfold (Text.entries text) empty

theorem ofNames_append (a b : List Char) :
    ofNames (a ++ ',' :: b) = do return (← ofNames a) ∪ (← ofNames b) := by
  rw [ofNames_eq, ofNames_eq, ofNames_eq, Text.entries_append, List.mapM_append]
  cases (Text.entries a).mapM ofName with
  | error fault => rfl
  | ok fs =>
    cases (Text.entries b).mapM ofName with
    | error fault => rfl
    | ok gs => exact congrArg Except.ok (unions_append fs gs)

theorem isSome_ofBareName?_iff {bare : List Char} :
    (ofBareName? bare).isSome = true ↔ IsBareName bare := by
  unfold ofBareName? IsBareName
  split_ifs with hnone
  · exact iff_of_true rfl (.inl hnone)
  · simp only [Option.isSome_map, List.find?_isSome, decide_eq_true_eq, Rule.mem_all, true_and,
      hnone, false_or]

/-- No bare name starts with `VERIFY_` itself. -/
theorem IsBareName.bareName_eq {bare : List Char} (h : IsBareName bare) : bareName bare = bare := by
  obtain rfl | ⟨rule, rfl⟩ := h
  · rfl
  · cases rule <;> rfl

theorem isBareName_bareName_iff : IsBareName (bareName name) ↔ IsName name := by
  constructor
  · intro h
    by_cases hprefix : "VERIFY_".toList <+: name
    · obtain ⟨bare, rfl⟩ := hprefix
      rw [bareName_verify] at h
      exact ⟨bare, h, .inr rfl⟩
    · rw [bareName_of_bare hprefix] at h
      exact ⟨name, h, .inl rfl⟩
  · rintro ⟨bare, hbare, rfl | rfl⟩
    · rwa [hbare.bareName_eq]
    · rwa [bareName_verify]

theorem ofName_isOk_iff : (ofName name).isOk = true ↔ IsName name := by
  rw [← isBareName_bareName_iff, ← isSome_ofBareName?_iff, ofName_eq]
  cases ofBareName? (bareName name) <;> simp [Except.isOk, Except.toBool]

instance : DecidablePred IsName := fun _ => decidable_of_iff _ ofName_isOk_iff

theorem ofNames_eq_error_iff {fault : ParseFault} : ofNames text = .error fault ↔
    ∃ before name after, Text.entries text = before ++ name :: after ∧
      (∀ entry ∈ before, IsName entry) ∧ ¬IsName name ∧
        fault = .unknownRule (String.ofList name) := by
  have hfirst (name : List Char) : firstRefused ofName (Text.entries text) = some name ↔
      ¬IsName name ∧ ∃ before after, Text.entries text = before ++ name :: after ∧
        ∀ entry ∈ before, IsName entry := by
    simp [firstRefused, List.find?_eq_some_iff_append, ← ofName_isOk_iff]
  rw [ofNames_eq, mapM_return_eq_error_iff fun _ _ => ofName_error]
  constructor
  · rintro ⟨name, hname, hfault⟩
    obtain ⟨hunknown, before, after, hentries, hbefore⟩ := (hfirst name).mp hname
    exact ⟨before, name, after, hentries, hbefore, hunknown, hfault⟩
  · rintro ⟨before, name, after, hentries, hbefore, hunknown, hfault⟩
    exact ⟨name, (hfirst name).mpr ⟨hunknown, before, after, hentries, hbefore⟩, hfault⟩

/-- A list is read exactly if every bare name in it is known, and then as the union of their
sets. -/
theorem ofNames_eq_ok_iff : ofNames text = .ok f ↔
    (∀ bare ∈ bareNames text, (ofBareName? bare).isSome = true) ∧
      unions ((bareNames text).map fun bare => (ofBareName? bare).getD empty) = f := by
  rw [bareNames, List.forall_mem_map, List.map_map, ofNames_eq]
  have hread (hknown : ∀ name ∈ Text.entries text, (ofBareName? (bareName name)).isSome = true) :
      (Text.entries text).mapM ofName =
        .ok ((Text.entries text).map fun name => (ofBareName? (bareName name)).getD empty) := by
    apply mapM_eq_ok_map
    intro name hname
    obtain ⟨g, hg⟩ := Option.isSome_iff_exists.mp (hknown name hname)
    rw [ofName_eq_ok_iff, hg]
    rfl
  constructor
  · intro hok
    obtain ⟨fs, hfs, hunion⟩ := bind_eq_ok.mp hok
    have hknown : ∀ name ∈ Text.entries text, (ofBareName? (bareName name)).isSome = true := by
      intro name hname
      obtain ⟨g, hg⟩ := exists_ok_of_mapM hfs name hname
      rw [ofName_eq_ok_iff.mp hg]
      rfl
    obtain rfl := Except.ok.inj ((hread hknown).symm.trans hfs)
    exact ⟨hknown, Except.ok.inj hunion⟩
  · rintro ⟨hknown, hunion⟩
    rw [hread hknown]
    exact congrArg Except.ok hunion

theorem ofNames_congr (h : ∀ bare, bare ∈ bareNames a ↔ bare ∈ bareNames b) :
    ofNames a = .ok f ↔ ofNames b = .ok f := by
  have hunion : unions ((bareNames a).map fun bare => (ofBareName? bare).getD empty) =
      unions ((bareNames b).map fun bare => (ofBareName? bare).getD empty) := by
    apply unions_congr
    simp only [List.mem_map, h, implies_true]
  rw [ofNames_eq_ok_iff, ofNames_eq_ok_iff, hunion]
  simp only [h]

theorem bareNames_append (a b : List Char) :
    bareNames (a ++ ',' :: b) = bareNames a ++ bareNames b := by
  rw [bareNames, Text.entries_append, List.map_append]
  rfl

end Names

section Spelling

/-- Other ways to write a list of names: in another order, with repetitions, with blanks around an
entry, with empty entries, with `VERIFY_` before a name that does not start with it, and all this in
any part of the list. -/
inductive Respelled : List Char → List Char → Prop
  | order (a b : List Char) : Respelled (a ++ ',' :: b) (b ++ ',' :: a)
  | repetition (a : List Char) : Respelled (a ++ ',' :: a) a
  | blanks {front entry back : List Char} : (∀ c ∈ front, Text.isBlank c = true) → ',' ∉ entry →
    (∀ c ∈ back, Text.isBlank c = true) → Respelled (front ++ entry ++ back) entry
  | emptyEntry (a : List Char) : Respelled (',' :: a) a
  | verify {name : List Char} : name ≠ [] → ',' ∉ name → Text.trim name = name →
    ¬"VERIFY_".toList <+: name → Respelled ("VERIFY_".toList ++ name) name
  | parts {a a' b b' : List Char} : Respelled a a' → Respelled b b' →
    Respelled (a ++ ',' :: b) (a' ++ ',' :: b')
  | refl (a : List Char) : Respelled a a
  | symm {a b : List Char} : Respelled a b → Respelled b a
  | trans {a b c : List Char} : Respelled a b → Respelled b c → Respelled a c

theorem Respelled.mem_bareNames_iff {a b : List Char} (h : Respelled a b) (bare : List Char) :
    bare ∈ bareNames a ↔ bare ∈ bareNames b := by
  induction h with
  | order a b => rw [bareNames_append, bareNames_append, List.mem_append, List.mem_append, or_comm]
  | repetition a => rw [bareNames_append, List.mem_append, or_self_iff]
  | @blanks front entry back hfront hcomma hback =>
    have hblank {gap : List Char} (hgap : ∀ c ∈ gap, Text.isBlank c = true) : ',' ∉ gap := by
      intro hmem
      exact absurd (hgap ',' hmem) (by decide)
    have hwhole : ',' ∉ front ++ entry ++ back := by
      simp only [List.mem_append, not_or]
      exact ⟨⟨hblank hfront, hcomma⟩, hblank hback⟩
    rw [bareNames, bareNames, Text.entries_of_no_comma hwhole, Text.entries_of_no_comma hcomma,
      Text.trim_blanks hfront hback]
  | emptyEntry a => rw [← List.nil_append (',' :: a), bareNames_append]; rfl
  | @verify name hne hcomma htrimmed hbare =>
    have hwhole : ',' ∉ "VERIFY_".toList ++ name := by
      rw [List.mem_append, not_or]
      exact ⟨by decide, hcomma⟩
    have hlonger : Text.entries ("VERIFY_".toList ++ name) = ["VERIFY_".toList ++ name] :=
      Text.entries_of_trimmed hwhole (by simp) (Text.trim_append_trimmed rfl hne htrimmed)
    rw [bareNames, bareNames, hlonger, Text.entries_of_trimmed hcomma hne htrimmed,
      List.map_singleton, List.map_singleton, bareName_verify, bareName_of_bare hbare]
  | parts _ _ iha ihb =>
    rw [bareNames_append, bareNames_append, List.mem_append, List.mem_append, iha, ihb]
  | refl a => exact Iff.rfl
  | symm _ ih => exact ih.symm
  | trans _ _ ih ih' => exact ih.trans ih'

end Spelling

section Writing

theorem entries_name (rule : Rule) : Text.entries rule.name.toList = [rule.name.toList] := by
  cases rule <;> rfl

theorem ofName_name (rule : Rule) : ofName rule.name.toList = .ok rule.flags := by
  cases rule <;> rfl

theorem ofNames_text (f : Flags) : ofNames f.text.toList = .ok (f ∩ ⟨0x1ffff⟩) := by
  unfold text
  split_ifs with hzero
  · obtain ⟨bits⟩ := f
    obtain rfl : bits = 0 := hzero
    decide +kernel
  · have hentries : Text.entries (",".intercalate f.names).toList =
        f.rules.map fun rule => rule.name.toList := by
      rw [String.toList_intercalate, names, List.map_map]
      apply Text.entries_intercalate
      rw [List.forall_mem_map]
      exact fun rule _ => entries_name rule
    have hread : (f.rules.map fun rule => rule.name.toList).mapM ofName =
        .ok (f.rules.map Rule.flags) := by
      rw [List.mapM_map]
      exact mapM_eq_ok_map fun rule _ => ofName_name rule
    rw [ofNames_eq, hentries, hread]
    exact congrArg Except.ok (unions_rules f)

end Writing

/-- Sets of rules and the lists of names that stand for them. Every mask is written as a list that
is read back as the mask, less the bits that no rule uses. A list in two parts stands for the union
of what its parts stand for, any list that fails does so by its first unknown name, and no other
spelling of a list changes its mask. -/
theorem rule_names_compose :
    (∀ f : Flags, ofNames f.text.toList = .ok (f ∩ ⟨0x1ffff⟩)) ∧
    (∀ a b, ofNames (a ++ ',' :: b) = do return (← ofNames a) ∪ (← ofNames b)) ∧
    (∀ text fault, ofNames text = .error fault ↔
      ∃ before name after, Text.entries text = before ++ name :: after ∧
        (∀ entry ∈ before, IsName entry) ∧ ¬IsName name ∧
          fault = .unknownRule (String.ofList name)) ∧
    ∀ a b, Respelled a b → ∀ f, ofNames a = .ok f ↔ ofNames b = .ok f := by
  refine ⟨ofNames_text, ofNames_append, fun _ _ => ofNames_eq_error_iff, ?_⟩
  intro a b h f
  exact ofNames_congr h.mem_bareNames_iff

/-- The list written for a mask with a bit that no rule uses, spelled with everything that does not
matter; and an unknown name between a known one and another unknown one. -/
theorem rule_names_compose_spelled_out :
    Respelled " VERIFY_WITNESS ,,P2SH,WITNESS".toList (text ⟨0x20801⟩).toList ∧
    ofNames " VERIFY_WITNESS ,,P2SH,WITNESS".toList = .ok ⟨0x801⟩ ∧
    ofNames "P2SH,BOGUS,OTHER".toList = .error (.unknownRule "BOGUS") := by
  obtain ⟨hround, -, hrefused, hspelled⟩ := rule_names_compose
  have hblanks : Respelled ([' '] ++ "VERIFY_WITNESS".toList ++ [' ']) "VERIFY_WITNESS".toList :=
    .blanks (List.forall_mem_singleton.mpr rfl) (by decide) (List.forall_mem_singleton.mpr rfl)
  have hverify : Respelled ("VERIFY_".toList ++ "WITNESS".toList) "WITNESS".toList :=
    .verify (by decide) (by decide) (by decide) (by decide)
  have hfirst : Respelled " VERIFY_WITNESS ,,P2SH,WITNESS".toList
      ("WITNESS".toList ++ ',' :: "P2SH,WITNESS".toList) :=
    .parts (hblanks.trans hverify) (.emptyEntry _)
  have hlast : Respelled ("P2SH".toList ++ ',' :: ("WITNESS".toList ++ ',' :: "WITNESS".toList))
      ("P2SH".toList ++ ',' :: "WITNESS".toList) :=
    .parts (.refl _) (.repetition _)
  have hwritten : (text ⟨0x20801⟩).toList = "P2SH".toList ++ ',' :: "WITNESS".toList := by
    decide +kernel
  have hsame : Respelled " VERIFY_WITNESS ,,P2SH,WITNESS".toList (text ⟨0x20801⟩).toList := by
    rw [hwritten]
    exact hfirst.trans (.trans (.order _ _) hlast)
  refine ⟨hsame, (hspelled _ _ hsame _).mpr (hround _), (hrefused _ _).mpr ?_⟩
  exact ⟨["P2SH".toList], "BOGUS".toList, ["OTHER".toList], rfl, by decide, by decide, rfl⟩

end Flags

end CoinScript
