import CoinScript.Script.Text
import CoinScript.Witness
import CoinScript.Proofs.SmallestPush
import Mathlib.Data.List.Find

/-! # Scripts and witnesses written as text

Both are read word by word. A text that falls apart at a blank is read as its two parts are, and a
text that cannot be read is refused by the name of the first word that cannot. On numbers and quoted
texts the two readings agree: the script that the words stand for, when executed, pushes the items
that the same words stand for in a witness.
-/
namespace CoinScript

section Traversal

variable {α β ε : Type} {f : α → Except ε β} {xs : List α}

/-- The first element that a traversal does not get past. -/
def firstRefused (f : α → Except ε β) (xs : List α) : Option α := xs.find? fun x => !(f x).isOk

theorem mapM_eq_ok_map {g : α → β} (h : ∀ x ∈ xs, f x = .ok (g x)) :
    xs.mapM f = .ok (xs.map g) := by
  induction xs with
  | nil => rfl
  | cons x xs ih =>
    obtain ⟨hx, hxs⟩ := List.forall_mem_cons.mp h
    rw [List.mapM_cons, hx, ih hxs]
    rfl

theorem exists_ok_of_mapM {ys : List β} (h : xs.mapM f = .ok ys) : ∀ x ∈ xs, ∃ y, f x = .ok y := by
  induction xs generalizing ys with
  | nil => exact nofun
  | cons x xs ih =>
    rw [List.mapM_cons] at h
    obtain ⟨y, hy, hrest⟩ := bind_eq_ok.mp h
    obtain ⟨rest, hrest, -⟩ := bind_eq_ok.mp hrest
    exact List.forall_mem_cons.mpr ⟨⟨y, hy⟩, ih hrest⟩

theorem mapM_eq_error_iff {fault : ε} :
    xs.mapM f = .error fault ↔ ∃ x, firstRefused f xs = some x ∧ f x = .error fault := by
  induction xs with
  | nil => simp [firstRefused, pure, Except.pure]
  | cons x xs ih =>
    rw [List.mapM_cons, firstRefused, List.find?_cons]
    cases hx : f x with
    | error other => simp [bind, Except.bind, Except.isOk, Except.toBool, hx]
    | ok y =>
      rw [firstRefused] at ih
      cases hxs : xs.mapM f with
      | error other => simpa [bind, Except.bind, Except.isOk, Except.toBool, hxs] using ih
      | ok rest =>
        simpa [bind, Except.bind, pure, Except.pure, Except.isOk, Except.toBool, hxs] using ih

theorem mapM_return_eq_error_iff {γ : Type} {g : List β → γ} {name : α → ε}
    (hname : ∀ x fault, f x = .error fault → fault = name x) {fault : ε} :
    (do return g (← xs.mapM f)) = .error fault ↔
      ∃ x, firstRefused f xs = some x ∧ fault = name x := by
  have hparts : (do return g (← xs.mapM f)) = .error fault ↔ xs.mapM f = .error fault := by
    cases xs.mapM f with
    | error other => simp [bind, Except.bind]
    | ok parts => simp [bind, Except.bind, pure, Except.pure]
  rw [hparts, mapM_eq_error_iff]
  refine exists_congr fun x => and_congr_right fun hfirst => ?_
  have hrefused : (f x).isOk = false := by simpa using List.find?_some hfirst
  cases hx : f x with
  | ok part =>
    rw [hx] at hrefused
    cases hrefused
  | error other =>
    rw [hname x other hx, Except.error.injEq]
    exact eq_comm

theorem flatten_mapM_singleton (f : α → Except ε β) (xs : List α) :
    (do let parts ← xs.mapM fun x => (f x).map fun y => [y]
        return parts.flatten) = xs.mapM f := by
  induction xs with
  | nil => rfl
  | cons x xs ih =>
    rw [List.mapM_cons, List.mapM_cons, ← ih]
    cases f x with
    | error fault => rfl
    | ok y => cases xs.mapM fun x => (f x).map fun y => [y] <;> rfl

end Traversal

namespace Text

section Splitting

variable {isSep : Char → Bool} {c : Char}

theorem splitOn_ne_nil (isSep : Char → Bool) (text : List Char) : splitOn isSep text ≠ [] := by
  induction text with
  | nil => exact List.cons_ne_nil _ _
  | cons c cs ih =>
    rw [splitOn]
    split_ifs
    · exact List.cons_ne_nil _ _
    · split <;> exact List.cons_ne_nil _ _

theorem splitOn_append (hsep : isSep c = true) (a b : List Char) :
    splitOn isSep (a ++ c :: b) = splitOn isSep a ++ splitOn isSep b := by
  induction a with
  | nil => simp [splitOn, hsep]
  | cons first a ih =>
    rw [List.cons_append, splitOn, splitOn, ih]
    split_ifs with hfirst
    · rfl
    · obtain ⟨piece, pieces, ha⟩ := List.exists_cons_of_ne_nil (splitOn_ne_nil isSep a)
      rw [ha]
      rfl

theorem splitOn_of_no_sep {text : List Char} (h : ∀ c ∈ text, isSep c = false) :
    splitOn isSep text = [text] := by
  induction text with
  | nil => rfl
  | cons c text ih =>
    obtain ⟨hc, hrest⟩ := List.forall_mem_cons.mp h
    simp [splitOn, hc, ih hrest]

theorem words_of_word {word : List Char} (hne : word ≠ []) (h : ∀ c ∈ word, isBlank c = false) :
    words word = [word] := by
  rw [words, splitOn_of_no_sep h]
  exact List.filter_cons_of_pos (decide_eq_true hne)

theorem words_append_blank (hblank : isBlank c = true) (a b : List Char) :
    words (a ++ c :: b) = words a ++ words b := by
  rw [words, splitOn_append hblank, List.filter_append]
  rfl

theorem words_append {gap : List Char} (hgap : gap ≠ []) (hblank : ∀ c ∈ gap, isBlank c = true)
    (a b : List Char) : words (a ++ gap ++ b) = words a ++ words b := by
  induction gap generalizing a with
  | nil => exact absurd rfl hgap
  | cons c gap ih =>
    obtain ⟨hc, hrest⟩ := List.forall_mem_cons.mp hblank
    rw [List.append_assoc, List.cons_append, words_append_blank hc]
    by_cases hlast : gap = []
    · rw [hlast, List.nil_append]
    · -- What is left of the gap follows the empty text.
      exact congrArg (words a ++ ·) (ih hlast hrest [])

end Splitting

section Reading

/-- A text is read word by word, and is refused by the name of the first word that is. -/
structure ReadsByWord {α : Type} (readWord read : List Char → Except ParseFault (List α)) :
    Prop where
  empty : read [] = .ok []
  word : ∀ word, word ≠ [] → (∀ c ∈ word, isBlank c = false) → read word = readWord word
  append : ∀ a gap b, gap ≠ [] → (∀ c ∈ gap, isBlank c = true) →
    read (a ++ gap ++ b) = do return (← read a) ++ (← read b)
  refused : ∀ text fault, read text = .error fault ↔
    ∃ word, firstRefused readWord (words text) = some word ∧
      fault = .badToken (String.ofList word)

variable {α : Type} {readWord : List Char → Except ParseFault (List α)}

theorem readsByWord_flatten
    (hname : ∀ word fault, readWord word = .error fault → fault = .badToken (String.ofList word)) :
    ReadsByWord readWord fun text => do
      let parts ← (words text).mapM readWord
      return parts.flatten where
  empty := rfl
  word word hne hwhole := by
    rw [words_of_word hne hwhole, List.mapM_cons, List.mapM_nil]
    cases readWord word with
    | error fault => rfl
    | ok part => exact congrArg Except.ok (List.append_nil part)
  append a gap b hgap hblank := by
    rw [words_append hgap hblank, List.mapM_append]
    cases (words a).mapM readWord with
    | error fault => rfl
    | ok front =>
      cases (words b).mapM readWord with
      | error fault => rfl
      | ok back => exact congrArg Except.ok List.flatten_append
  refused _ _ := mapM_return_eq_error_iff hname

end Reading

end Text

namespace Word

variable {word : List Char}

theorem ofChars_error {fault : ParseFault} (h : ofChars word = .error fault) :
    fault = .badToken (String.ofList word) := by
  unfold ofChars at h
  dsimp only at h
  split_ifs at h
  · cases h
    rfl
  · split at h
    · split at h
      · split_ifs at h
        cases h
        rfl
      · cases h
        rfl
    · split at h <;> cases h

theorem ofChars_bind_error {α : Type} {next : Word → Except ParseFault α} {fault : ParseFault}
    (hnext : ∀ read, next read = .error fault → fault = .badToken (String.ofList word))
    (h : (ofChars word >>= next) = .error fault) : fault = .badToken (String.ofList word) := by
  cases hword : ofChars word with
  | error other =>
    rw [hword] at h
    cases h
    exact ofChars_error hword
  | ok read =>
    rw [hword] at h
    exact hnext read h

theorem wordBytes_error {fault : ParseFault} (h : Script.wordBytes word = .error fault) :
    fault = .badToken (String.ofList word) := by
  refine ofChars_bind_error (fun read hread => ?_) h
  cases read with
  | name name =>
    dsimp only at hread
    split at hread
    · cases hread
    · cases hread
      rfl
  | _ => cases hread

theorem wordItem_error {fault : ParseFault} (h : Witness.wordItem word = .error fault) :
    fault = .badToken (String.ofList word) := by
  refine ofChars_bind_error (fun read hread => ?_) h
  cases read with
  | name name =>
    cases hread
    rfl
  | _ => cases hread

/-- If the word is a number, then it is in the range of the numbers that are written. -/
def InRange (word : List Char) : Prop :=
  Text.isDecimal word = true →
    -maxNumber ≤ Text.decimalValue word ∧ Text.decimalValue word ≤ maxNumber

theorem ofChars_of_inRange (h : Text.isDecimal word = true) (hrange : InRange word) :
    ofChars word = .ok (.number (Text.decimalValue word)) := by
  unfold ofChars
  rw [if_pos h]
  exact if_pos (hrange h)

theorem ofChars_of_not_inRange (h : ¬InRange word) : ofChars word = refuse word := by
  obtain ⟨hdecimal, hfar⟩ := Classical.not_imp.mp h
  unfold ofChars
  rw [if_pos hdecimal]
  exact if_neg hfar

/-- A quoted text starts with its quote, so it is taken for nothing else. -/
theorem ofChars_of_quoted {inner : List Char} (h : Text.unquote? word = some inner) :
    ofChars word = .ok (.quoted (Text.utf8 inner)) := by
  match word with
  | [] => cases h
  | c :: rest =>
    by_cases hquote : c = '\''
    · have hdecimal : Text.isDecimal ('\'' :: rest) = false := by
        simp [Text.isDecimal, Text.isDigit]
      rw [hquote] at h ⊢
      simp [ofChars, hdecimal, h]
    · simp [Text.unquote?, hquote] at h

/-- A decimal number, or a text between quotes. -/
def isPlain (word : List Char) : Bool := Text.isDecimal word || (Text.unquote? word).isSome

/-- The item that a plain word stands for: the shortest form of the number, or the text itself. -/
def plainItem (word : List Char) : Bytes :=
  match Text.unquote? word with
  | some inner => Text.utf8 inner
  | none => Number.encode (Text.decimalValue word)

/-- The instruction that a plain word stands for. A quoted text is pushed by its length even where
an opcode pushes the same. -/
def plainPush (word : List Char) : Instruction :=
  match Text.unquote? word with
  | some inner => .ofData (Text.utf8 inner)
  | none => .ofInt (Text.decimalValue word)

theorem plain_cases (h : isPlain word = true) :
    (∃ inner, Text.unquote? word = some inner) ∨
    Text.unquote? word = none ∧ Text.isDecimal word = true := by
  cases hinner : Text.unquote? word with
  | some inner => exact .inl ⟨inner, rfl⟩
  | none =>
    rw [isPlain, hinner, Option.isSome_none, Bool.or_false] at h
    exact .inr ⟨rfl, h⟩

theorem wordBytes_plain (h : isPlain word = true) (hrange : InRange word) :
    Script.wordBytes word = .ok (plainPush word).encode := by
  rcases plain_cases h with ⟨inner, hinner⟩ | ⟨hinner, hdecimal⟩
  · rw [Script.wordBytes, ofChars_of_quoted hinner, plainPush, hinner]
    rfl
  · rw [Script.wordBytes, ofChars_of_inRange hdecimal hrange, plainPush, hinner]
    rfl

theorem wordItem_plain (h : isPlain word = true) (hrange : InRange word) :
    Witness.wordItem word = .ok (plainItem word) := by
  rcases plain_cases h with ⟨inner, hinner⟩ | ⟨hinner, hdecimal⟩
  · rw [Witness.wordItem, ofChars_of_quoted hinner, plainItem, hinner]
    rfl
  · rw [Witness.wordItem, ofChars_of_inRange hdecimal hrange, plainItem, hinner]
    rfl

theorem isOk_iff_inRange {α : Type} {next : Word → Except ParseFault α} {value : α}
    (h : InRange word → (ofChars word >>= next) = .ok value) :
    (ofChars word >>= next).isOk = true ↔ InRange word := by
  constructor
  · intro hok
    by_contra hrange
    rw [ofChars_of_not_inRange hrange] at hok
    cases hok
  · intro hrange
    rw [h hrange]
    rfl

theorem isOk_wordBytes_eq (h : isPlain word = true) :
    (Script.wordBytes word).isOk = (Witness.wordItem word).isOk := by
  rw [Bool.eq_iff_iff]
  exact (isOk_iff_inRange (wordBytes_plain h)).trans (isOk_iff_inRange (wordItem_plain h)).symm

theorem denotes_plain (hlength : (plainItem word).length < 2 ^ 32) :
    (plainPush word).Denotes (plainItem word) := by
  unfold plainItem at hlength
  unfold plainItem plainPush
  cases hinner : Text.unquote? word with
  | some inner =>
    rw [hinner] at hlength
    exact .push (Instruction.wellFormed_ofData hlength) (Instruction.isPush_ofData _)
  | none =>
    rw [hinner] at hlength
    rw [Instruction.ofInt_eq_ofPush]
    exact Instruction.denotes_ofPush hlength

/-- Numbers that are written take five bytes at most, so only quoted texts can be long. -/
theorem length_plainItem_le {bound : Nat} (h : isPlain word = true) (hrange : InRange word)
    (hbound : 5 ≤ bound)
    (hquoted : ∀ inner, Text.unquote? word = some inner → (Text.utf8 inner).length ≤ bound) :
    (plainItem word).length ≤ bound := by
  unfold plainItem
  rcases plain_cases h with ⟨inner, hinner⟩ | ⟨hinner, hdecimal⟩
  · rw [hinner]
    exact hquoted inner hinner
  · have hwidth : (Number.encode (Text.decimalValue word)).length ≤ 5 := by
      obtain ⟨hlow, hhigh⟩ := hrange hdecimal
      rw [Number.length_encode_le_iff]
      simp only [maxNumber] at hlow hhigh
      omega
    rw [hinner]
    exact Nat.le_trans hwidth hbound

end Word

section Texts

variable {text : List Char}

theorem script_readsByWord : Text.ReadsByWord Script.wordBytes Script.ofText :=
  Text.readsByWord_flatten fun _ _ => Word.wordBytes_error

theorem witness_readsByWord :
    Text.ReadsByWord (fun word => (Witness.wordItem word).map ([·])) Witness.ofText := by
  have hread : Witness.ofText = fun text => do
      let parts ← (Text.words text).mapM fun word => (Witness.wordItem word).map ([·])
      return parts.flatten := by
    funext text
    exact (flatten_mapM_singleton Witness.wordItem (Text.words text)).symm
  rw [hread]
  apply Text.readsByWord_flatten
  intro word fault h
  cases hword : Witness.wordItem word with
  | error other =>
    rw [hword] at h
    cases h
    exact Word.wordItem_error hword
  | ok item =>
    rw [hword] at h
    cases h

theorem ofText_plain (hplain : ∀ word ∈ Text.words text, Word.isPlain word = true)
    (hrange : ∀ word ∈ Text.words text, Word.InRange word) :
    Script.ofText text = .ok (.ofInstructions ((Text.words text).map Word.plainPush)) ∧
    Witness.ofText text = .ok ((Text.words text).map Word.plainItem) := by
  have hparts := mapM_eq_ok_map fun word hword =>
    Word.wordBytes_plain (hplain word hword) (hrange word hword)
  constructor
  · rw [Script.ofText, hparts]
    simp [Script.ofInstructions, List.flatMap, bind, Except.bind, pure, Except.pure,
      Function.comp_def]
  · exact mapM_eq_ok_map fun word hword =>
      Word.wordItem_plain (hplain word hword) (hrange word hword)

theorem ofText_out_of_range (hplain : ∀ word ∈ Text.words text, Word.isPlain word = true)
    (h : ¬∀ word ∈ Text.words text, Word.InRange word) :
    ∃ fault, Script.ofText text = .error fault ∧ Witness.ofText text = .error fault := by
  have hsame : firstRefused (fun word => (Witness.wordItem word).map ([·])) (Text.words text) =
      firstRefused Script.wordBytes (Text.words text) := by
    refine List.find?_congr fun word hword => congrArg (! ·) ?_
    rw [Word.isOk_wordBytes_eq (hplain word hword)]
    dsimp only
    cases Witness.wordItem word <;> rfl
  have hrefused : (firstRefused Script.wordBytes (Text.words text)).isSome = true := by
    simp only [not_forall] at h
    obtain ⟨word, hword, hfar⟩ := h
    rw [firstRefused, List.find?_isSome]
    refine ⟨word, hword, ?_⟩
    rw [Bool.not_eq_true', Bool.eq_false_iff]
    intro hok
    exact hfar ((Word.isOk_iff_inRange (Word.wordBytes_plain (hplain word hword))).mp hok)
  obtain ⟨word, hfirst⟩ := Option.isSome_iff_exists.mp hrefused
  refine ⟨.badToken (String.ofList word), ?_, ?_⟩
  · exact (script_readsByWord.refused _ _).mpr ⟨word, hfirst, rfl⟩
  · exact (witness_readsByWord.refused _ _).mpr ⟨word, hsame.trans hfirst, rfl⟩

end Texts

namespace Machine

open Instruction (Denotes)

variable {env : Env} {α : Type} {xs : List α} {push : α → Instruction} {item : α → Bytes}

theorem length_data_le_of_denotes {ins : Instruction} {data : Bytes} (h : Denotes ins data) :
    ins.data.length ≤ data.length := by
  cases h with
  | push => exact Nat.le_refl _
  | _ => exact Nat.zero_le _

/-- Instructions that stand for items leave these items, within the limits and where pushes need
not be minimal. -/
theorem execute_denoting (hdenotes : ∀ x ∈ xs, Denotes (push x) (item x))
    (hscript : env.script = .ofInstructions (xs.map push))
    (hsize : env.script.length ≤ env.limits.maxScriptSize)
    (helement : ∀ x ∈ xs, (item x).length ≤ env.limits.maxElementSize)
    (hroom : xs.length ≤ env.limits.maxStackSize) (hrule : env.flags.has .minimalData = false) :
    (env.execute []).result = .ok (.ofItems (xs.map item)) := by
  have hform (x : α) (hx : x ∈ xs) := Instruction.denotes_iff.mp (hdenotes x hx)
  have hsequence : Script.Sequence (xs.map push) := by
    apply Script.sequence_of_wellFormed
    rw [List.forall_mem_map]
    exact fun x hx => (hform x hx).1
  have hinstructions : env.script.instructions = xs.map push := by
    rw [hscript, Script.instructions_ofInstructions hsequence]
  have hall {P : Instruction → Prop} (h : ∀ x ∈ xs, P (push x)) :
      ∀ ins ∈ env.script.instructions, P ins := by
    rw [hinstructions, List.forall_mem_map]
    exact h
  have hpushes : env.script.isPushOnly = true := by
    rw [Script.isPushOnly, List.all_eq_true]
    exact hall fun x hx => (hform x hx).2.1
  refine (execute_pushOnly_iff hpushes).mpr ⟨⟨hsize, ?_, ?_, fun hon => ?_, fun _ => ?_⟩, ?_⟩
  · exact hall fun x hx => (hform x hx).2.2.1
  · exact hall fun x hx => Nat.le_trans (length_data_le_of_denotes (hdenotes x hx)) (helement x hx)
  · rw [hrule] at hon
    cases hon
  · rw [hinstructions, List.length_map]
    simpa using hroom
  · rw [hinstructions, List.map_map, Stack.items_ofItems]
    exact List.map_congr_left fun x hx => (hform x hx).2.2.2.symm

/-- Scripts and witnesses are read from text word by word. On texts of numbers and quoted texts both
readings succeed when the numbers are in range, and the script, where it fits the limits and pushes
need not be minimal, leaves the items of the witness. -/
theorem text_forms_agree :
    Text.ReadsByWord Script.wordBytes Script.ofText ∧
    Text.ReadsByWord (fun word => (Witness.wordItem word).map ([·])) Witness.ofText ∧
    ∀ text, (∀ word ∈ Text.words text, Word.isPlain word = true) →
      ((∃ script, Script.ofText text = .ok script) ↔
        ∀ word ∈ Text.words text, Word.InRange word) ∧
      ((∃ items, Witness.ofText text = .ok items) ↔
        ∀ word ∈ Text.words text, Word.InRange word) ∧
      ∀ script items, Script.ofText text = .ok script → Witness.ofText text = .ok items →
        items = (Text.words text).map Word.plainItem ∧
        ((∀ word ∈ Text.words text, ∀ inner, Text.unquote? word = some inner →
            (Text.utf8 inner).length ≤ 520) →
          (Text.words text).length ≤ 1000 → script.length ≤ 10000 →
          ∀ env : Env, env.limits = {} → env.flags.has .minimalData = false →
            env.script = script → (env.execute []).result = .ok (.ofItems items)) := by
  refine ⟨script_readsByWord, witness_readsByWord, fun text hplain => ?_⟩
  by_cases hrange : ∀ word ∈ Text.words text, Word.InRange word
  · obtain ⟨hscript, hwitness⟩ := ofText_plain hplain hrange
    refine ⟨iff_of_true ⟨_, hscript⟩ hrange, iff_of_true ⟨_, hwitness⟩ hrange, ?_⟩
    intro script items hs hw
    obtain rfl : _ = script := Except.ok.inj (hscript.symm.trans hs)
    obtain rfl : _ = items := Except.ok.inj (hwitness.symm.trans hw)
    refine ⟨rfl, fun hquoted hcount hsize env hlimits hrule henv => ?_⟩
    have hlength : ∀ word ∈ Text.words text, (Word.plainItem word).length ≤ 520 :=
      fun word hword => Word.length_plainItem_le (hplain word hword) (hrange word hword)
        (by decide) (hquoted word hword)
    refine execute_denoting (fun word hword => Word.denotes_plain ?_) henv ?_ ?_ ?_ hrule
    · have hword := hlength word hword
      omega
    · rw [henv, hlimits]
      exact hsize
    · rw [hlimits]
      exact hlength
    · rw [hlimits]
      exact hcount
  · obtain ⟨fault, hscript, hwitness⟩ := ofText_out_of_range hplain hrange
    rw [hscript, hwitness]
    refine ⟨iff_of_false ?_ hrange, iff_of_false ?_ hrange, fun script items hs => ?_⟩
    · rintro ⟨script, hs⟩
      cases hs
    · rintro ⟨items, hw⟩
      cases hw
    · cases hs

/-- Zero with a sign, leading zeros, the largest number, and quotes with and without a text. -/
theorem text_forms_agree_mixed :
    let text := "-0 007	'a' ''
4294967295 -1".toList
    let script : Script := [0x00, 0x57, 0x01, 0x61, 0x00, 0x05, 0xff, 0xff, 0xff, 0xff, 0x00, 0x4f]
    let items : Witness := [[], [7], [0x61], [], [0xff, 0xff, 0xff, 0xff, 0x00], [0x81]]
    (∀ word ∈ Text.words text, Word.isPlain word = true) ∧
    Script.ofText text = .ok script ∧ Witness.ofText text = .ok items ∧
    (Env.execute { flags := Flags.ofRules [], script } []).result = .ok (.ofItems items) := by
  intro text script items
  have hplain : ∀ word ∈ Text.words text, Word.isPlain word = true := by decide +kernel
  have hscript : Script.ofText text = .ok script := by decide +kernel
  have hwitness : Witness.ofText text = .ok items := by decide +kernel
  obtain ⟨-, -, hagree⟩ := text_forms_agree
  obtain ⟨-, -, hexecute⟩ := hagree text hplain
  obtain ⟨-, hresult⟩ := hexecute script items hscript hwitness
  have hquoted : ∀ word ∈ Text.words text, ∀ inner ∈ Text.unquote? word,
      (Text.utf8 inner).length ≤ 520 := by
    decide +kernel
  exact ⟨hplain, hscript, hwitness,
    hresult hquoted (by decide +kernel) (by decide) _ rfl (by decide) rfl⟩

end Machine

end CoinScript
