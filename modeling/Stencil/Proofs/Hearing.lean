/-
# `Stencil.Proofs.Hearing` — the command line of a render

A command line that renders a template names the template, with options in front of it and behind
it (`Invocation`).  The words of such a command line are told apart twice: all of them for the
options that hold for all verbs, and those behind the verb for the options of the verb.  Both times
they come out as they were meant:

    word           for all verbs    behind `render`
    `render`       plain            —
    name           unknown          that option
    its value      (anything)       plain
    the template   (anything)       plain

A text that is a value or the template has to be plain for that (`IsPlain`), which no option can
be mistaken for.  An integer always is, a negative one too.

**Proved here**: such a command line is the command to render that template, with the last value
of each option (`Invocation.ofTexts_texts`).  Only an integer of more digits than are read has it
rejected (`Invocation.ofTexts_of_unreadable`).
-/
import Mathlib.Data.List.Forall2
import Mathlib.Data.List.Induction
import Mathlib.Data.List.TakeWhile
import Stencil.Cli.Command
import Stencil.Proofs.Decimals

namespace Stencil

open CommandLine

namespace CommandLine

/-! ## Words -/

/-- A text that stands for itself on the command line of a render. -/
structure IsPlain (text : String) : Prop where
  ne_separator : text.toList ≠ separator
  known : ∃ word, wordOf Verb.sharedOptions text = .ok word
  plain : wordOf Verb.render.options text = .ok (.plain text)

theorem wordOf_of_no_dash {names : List OptionName} {text : String}
    (h : text.toList.head? ≠ some '-') : wordOf names text = .ok (.plain text) := by
  unfold wordOf
  split
  next htext =>
    rw [htext] at h
    exact absurd rfl h
  · rfl

/-- Whatever has no dash in front is plain. -/
theorem IsPlain.of_no_dash {text : String} (h : text.toList.head? ≠ some '-') : IsPlain text where
  ne_separator := fun hseparator => h (hseparator ▸ rfl)
  known := ⟨_, wordOf_of_no_dash h⟩
  plain := wordOf_of_no_dash h

/-- None of these options has a digit behind its dash. -/
def NoDigits (names : List OptionName) : Prop :=
  ∀ name ∈ names, (name.name.getD 1 '-').isDigit = false

instance (names : List OptionName) : Decidable (NoDigits names) :=
  inferInstanceAs (Decidable (∀ _ ∈ _, _))

theorem bne_of_digits {ds : List Char} (h : ∀ c ∈ ds, c.isDigit = true) {sign : Char}
    (hsign : sign.isDigit = false) : ∀ c ∈ ds, (c != sign) = true := by
  intro c hc
  refine bne_iff_ne.2 ?_
  rintro rfl
  cases (h c hc).symm.trans hsign

theorem cutAtEquals_of_digits {ds : List Char} (h : ∀ c ∈ ds, c.isDigit = true) :
    cutAtEquals ('-' :: ds) = ('-' :: ds, none) := by
  have hall : ∀ c ∈ '-' :: ds, (c != '=') = true :=
    List.forall_mem_cons.2 ⟨by decide, bne_of_digits h (by decide)⟩
  rw [cutAtEquals, List.dropWhile_eq_nil_iff.2 hall]

/-- A dash and digits mean no option. -/
theorem meanings_of_digits {names : List OptionName} (hnames : NoDigits names) {d : Char}
    {ds : List Char} (h : ∀ c ∈ d :: ds, c.isDigit = true) :
    meanings names ('-' :: d :: ds) = [] := by
  have hd := h d List.mem_cons_self
  have hne : ∀ name ∈ names, ∀ rest, name.name ≠ '-' :: d :: rest := by
    intro name hmem rest hname
    have hdigit := hnames name hmem
    rw [hname] at hdigit
    cases hd.symm.trans hdigit
  have hfind : names.find? (·.name = '-' :: d :: ds) = none :=
    List.find?_eq_none.2 fun name hmem h => hne name hmem ds (of_decide_eq_true h)
  have hdash : separator.isPrefixOf ('-' :: d :: ds) = false := by
    refine Bool.eq_false_iff.2 fun hprefix => ?_
    obtain ⟨rest, hrest⟩ := List.isPrefixOf_iff_prefix.1 hprefix
    obtain rfl : '-' = d := (List.cons.inj (List.cons.inj hrest).2).1
    cases hd
  have hshort : (names.filter fun name => name.name = ('-' :: d :: ds).take 2) = [] :=
    List.filter_eq_nil_iff.2 fun name hmem h => hne name hmem [] (of_decide_eq_true h)
  simp only [meanings, cutAtEquals_of_digits h, hfind, hdash, hshort, Bool.false_eq_true, if_false,
    List.map_nil]

theorem isNegativeNumber_of_digits {d : Char} {ds : List Char}
    (h : ∀ c ∈ d :: ds, c.isDigit = true) : isNegativeNumber ('-' :: d :: ds) = true := by
  have hlast : (d :: ds).getLast? ≠ some '\n' := fun hlast => by
    cases h _ (List.mem_of_getLast? hlast)
  have hpoint : ∀ c ∈ d :: ds, (c != '.') = true := bne_of_digits h (by decide)
  have hdigits : areDigits (d :: ds) = true := by
    rw [areDigits, List.isEmpty_cons, Bool.not_false, Bool.true_and]
    refine List.all_eq_true.2 fun c hc => ?_
    rw [Integer.digitValue?_of_isDigit (h c hc), Option.isSome_some]
  simp only [isNegativeNumber, hlast, if_false, List.dropWhile_eq_nil_iff.2 hpoint,
    List.takeWhile_eq_self_iff.2 hpoint, hdigits]

theorem wordOf_toString {names : List OptionName} (hnames : NoDigits names) (n : Int) :
    wordOf names (toString n) = .ok (.plain (toString n)) := by
  obtain ⟨d, ds, hcons, hdigits⟩ := Integer.exists_digits n.natAbs
  have htext := Integer.toList_toString n
  rw [hcons] at htext
  by_cases hneg : n < 0
  · rw [if_pos hneg, List.singleton_append] at htext
    simp only [wordOf, htext, meanings_of_digits hnames hdigits,
      isNegativeNumber_of_digits hdigits, Bool.true_or, if_true]
  · rw [if_neg hneg, List.nil_append] at htext
    refine wordOf_of_no_dash ?_
    rw [htext, List.head?_cons]
    rintro ⟨⟩
    cases hdigits _ List.mem_cons_self

/-- An integer is plain, with its dash if it has one. -/
theorem IsPlain.toString (n : Int) : IsPlain (toString n) where
  ne_separator := by
    obtain ⟨d, ds, hcons, hdigits⟩ := Integer.exists_digits n.natAbs
    intro hseparator
    have hmem : d ∈ (ToString.toString n).toList := by
      rw [Integer.toList_toString, hcons]
      exact List.mem_append_right _ List.mem_cons_self
    rw [hseparator] at hmem
    obtain rfl : d = '-' := by simpa [separator] using hmem
    cases hdigits _ List.mem_cons_self
  known := ⟨_, wordOf_toString (by decide) n⟩
  plain := wordOf_toString (by decide) n

theorem wordsOf_eq_ok {names : List OptionName} {texts : List String} {words : List Word}
    (hne : ∀ text ∈ texts, text.toList ≠ separator)
    (h : List.Forall₂ (fun text word => wordOf names text = .ok word) texts words) :
    wordsOf names texts = .ok words := by
  induction h with
  | nil => rfl
  | cons hword _ ih =>
      obtain ⟨hne, hrest⟩ := List.forall_mem_cons.1 hne
      rw [wordsOf, if_neg hne, hword, ih hrest]
      rfl

/-! ## Options with values -/

/-- The name of an option that takes a value means that option, and none for all verbs. -/
theorem meanings_of_takesValue : ∀ name ∈ Verb.render.options, name.takesValue = true →
    meanings Verb.render.options name.name = [(name, none)] ∧
      meanings Verb.sharedOptions name.name = [] := by
  decide

/-- It starts with two dashes, goes on, and is nothing that could be plain. -/
theorem dashes_of_takesValue : ∀ name ∈ Verb.render.options, name.takesValue = true →
    separator <+: name.name ∧ name.name ≠ separator ∧ isNegativeNumber name.name = false ∧
      name.name.contains ' ' = false := by
  decide

section Names

variable {name : OptionName} (hmem : name ∈ Verb.render.options) (htakes : name.takesValue = true)

include hmem htakes

theorem exists_name_eq :
    ∃ cs, name.name = '-' :: '-' :: cs ∧ (String.ofList name.name).toList = '-' :: '-' :: cs := by
  obtain ⟨⟨cs, hcs⟩, -⟩ := dashes_of_takesValue name hmem htakes
  exact ⟨cs, hcs.symm, String.toList_ofList.trans hcs.symm⟩

theorem wordOf_name :
    wordOf Verb.render.options (String.ofList name.name) = .ok (.option name none) := by
  obtain ⟨cs, hname, htext⟩ := exists_name_eq hmem htakes
  obtain ⟨hmeanings, -⟩ := meanings_of_takesValue name hmem htakes
  simp only [wordOf, htext]
  rw [← hname, hmeanings]

theorem wordOf_name_shared :
    wordOf Verb.sharedOptions (String.ofList name.name) = .ok .unknown := by
  obtain ⟨cs, hname, htext⟩ := exists_name_eq hmem htakes
  obtain ⟨-, -, hnumber, hspace⟩ := dashes_of_takesValue name hmem htakes
  obtain ⟨-, hmeanings⟩ := meanings_of_takesValue name hmem htakes
  simp only [wordOf, htext]
  rw [← hname, hmeanings]
  simp only [hnumber, hspace, Bool.or_self, Bool.false_eq_true, if_false]

end Names

theorem Said.withValue_text {said : Said} {name : OptionName} {text : String}
    (h : name.kind = .text) :
    said.withValue name text = .ok { said with texts := said.texts.insert name.key text } := by
  rw [Said.withValue, h]

theorem Said.withValue_integer {said : Said} {name : OptionName} {text : String} {n : Int}
    (h : name.kind = .integer) (hread : Integer.read text = .ok n) :
    said.withValue name text = .ok { said with integers := said.integers.insert name.key n } := by
  rw [Said.withValue, h, hread]

theorem Said.withValue_unreadable {said : Said} {name : OptionName} {text : String}
    {e : Integer.ReadError} (h : name.kind = .integer) (hread : Integer.read text = .error e) :
    said.withValue name text = .error .rejected := by
  rw [Said.withValue, h, hread]

end CommandLine

/-! ## Command lines -/

/-- An option of a render whose value is a text. -/
inductive TextOption where
  | base
  | extension
  | context
  | out
deriving DecidableEq, Repr

/-- The key of an option. -/
def TextOption.key : TextOption → String
  | base => "base"
  | extension => "extension"
  | context => "context"
  | out => "out"

theorem TextOption.key_inj {o p : TextOption} (h : o.key = p.key) : o = p := by
  cases o <;> cases p <;> first | rfl | exact absurd h (by decide)

/-- An option with its value. -/
inductive Given where
  | text (option : TextOption) (value : String) (plain : IsPlain value)
  | limit (n : Int)

namespace Given

/-- The option. -/
def name : Given → OptionName
  | text option _ _ => Verb.textOption option.key
  | limit _ => ⟨"--max-steps".toList, "max-steps", .integer⟩

/-- Its value, as it is written. -/
def value : Given → String
  | text _ value _ => value
  | limit n => toString n

/-- Two texts on the command line: the option and its value. -/
def texts (g : Given) : List String := [String.ofList g.name.name, g.value]

/-- The words that these are. -/
def words (g : Given) : List Word := [.option g.name none, .plain g.value]

/-- The value, if it is for this option. -/
def textFor? (option : TextOption) : Given → Option String
  | text o value _ => if o = option then some value else none
  | limit _ => none

/-- The value, if it is a step limit. -/
def limit? : Given → Option Int
  | text _ _ _ => none
  | limit n => some n

/-- Can the value be read? -/
def IsReadable (g : Given) : Prop := ∀ n, g.limit? = some n → Integer.IsShort n

/-- What has been said, with this. -/
def having (said : Said) : Given → Said
  | text option value _ => { said with texts := said.texts.insert option.key value }
  | limit n => { said with integers := said.integers.insert "max-steps" n }

theorem isPlain_value (g : Given) : IsPlain g.value := by
  cases g with
  | text option value plain => exact plain
  | limit n => exact .toString n

theorem name_mem (g : Given) : g.name ∈ Verb.render.options := by
  cases g with
  | text option value plain =>
      have hall : ∀ o : TextOption, Verb.textOption o.key ∈ Verb.render.options := by
        intro o
        cases o <;> decide
      exact hall option
  | limit n =>
      have hlimit : (⟨"--max-steps".toList, "max-steps", .integer⟩ : OptionName) ∈
          Verb.render.options := by decide
      exact hlimit

theorem takesValue_name (g : Given) : g.name.takesValue = true := by
  cases g <;> rfl

/-- A value that can be read is heard. -/
theorem withValue_of_isReadable {g : Given} (h : g.IsReadable) (said : Said) :
    said.withValue g.name g.value = .ok (having said g) := by
  cases g with
  | text option value plain => exact Said.withValue_text rfl
  | limit n =>
      have hread : Integer.read (toString n) = .ok n := by
        rw [Integer.read_toString, if_pos (h n rfl)]
      exact Said.withValue_integer rfl hread

theorem withValue_of_not_isReadable {g : Given} (h : ¬ g.IsReadable) (said : Said) :
    said.withValue g.name g.value = .error .rejected := by
  cases g with
  | text option value plain => exact absurd nofun h
  | limit n =>
      have hlong : ¬ Integer.IsShort n := by
        intro hshort
        refine h ?_
        rintro _ ⟨⟩
        exact hshort
      have hread := Integer.read_toString n
      rw [if_neg hlong] at hread
      exact Said.withValue_unreadable rfl hread

/-- The texts of options and their values come out as the words that they are. -/
theorem forall₂_words (gs : List Given) :
    List.Forall₂ (fun text word => wordOf Verb.render.options text = .ok word)
      (gs.flatMap texts) (gs.flatMap words) := by
  induction gs with
  | nil => exact .nil
  | cons g gs ih =>
      exact .cons (wordOf_name g.name_mem g.takesValue_name) (.cons g.isPlain_value.plain ih)

theorem exists_forall₂_shared (gs : List Given) :
    ∃ words, List.Forall₂ (fun text word => wordOf Verb.sharedOptions text = .ok word)
      (gs.flatMap texts) words := by
  induction gs with
  | nil => exact ⟨[], .nil⟩
  | cons g gs ih =>
      obtain ⟨words, hwords⟩ := ih
      obtain ⟨word, hword⟩ := g.isPlain_value.known
      exact ⟨.unknown :: word :: words,
        .cons (wordOf_name_shared g.name_mem g.takesValue_name) (.cons hword hwords)⟩

theorem ne_separator_of_mem {gs : List Given} {text : String} (h : text ∈ gs.flatMap texts) :
    text.toList ≠ separator := by
  obtain ⟨g, -, hmem⟩ := List.mem_flatMap.1 h
  rcases List.mem_cons.1 hmem with rfl | hmem
  · rw [String.toList_ofList]
    exact (dashes_of_takesValue g.name g.name_mem g.takesValue_name).2.1
  · obtain rfl := List.mem_singleton.1 hmem
    exact g.isPlain_value.ne_separator

theorem hear_words {names : List OptionName} (gs : List Given) (said : Said) (rest : List Word) :
    hear names said (gs.flatMap words ++ rest) =
      gs.foldlM (fun said g => said.withValue g.name g.value) said >>= fun said =>
        hear names said rest := by
  induction gs generalizing said with
  | nil => rfl
  | cons g gs ih =>
      have hstep : hear names said ((g :: gs).flatMap words ++ rest) =
          said.withValue g.name g.value >>= fun said => hear names said (gs.flatMap words ++ rest) := by
        rw [List.flatMap_cons, words, List.append_assoc, List.cons_append, List.cons_append,
          List.nil_append, hear, if_pos g.takesValue_name]
      rw [hstep, List.foldlM_cons, bind_assoc]
      exact bind_congr fun said => ih said

theorem hear_plain {names : List OptionName} (gs : List Given) (said : Said) (text : String) :
    hear names said (.plain text :: gs.flatMap words) =
      hear names (said.withPlain text) (gs.flatMap words) := by
  cases gs with
  | nil => rw [List.flatMap_nil, hear.eq_def]
  | cons g gs =>
      rw [List.flatMap_cons, words, List.cons_append, hear]
      -- What stands behind is an option, and no separator.
      exact nofun

/-- Where every value can be read, all of them are heard. -/
theorem foldlM_of_readable {gs : List Given} (h : ∀ g ∈ gs, g.IsReadable) (said : Said) :
    gs.foldlM (fun said g => said.withValue g.name g.value) said = .ok (gs.foldl having said) := by
  induction gs generalizing said with
  | nil => rfl
  | cons g gs ih =>
      obtain ⟨hg, hgs⟩ := List.forall_mem_cons.1 h
      rw [List.foldlM_cons, withValue_of_isReadable hg]
      exact ih hgs _

/-- One value that cannot be read is enough for none to be heard. -/
theorem foldlM_of_unreadable {gs : List Given} (h : ¬ ∀ g ∈ gs, g.IsReadable) (said : Said) :
    gs.foldlM (fun said g => said.withValue g.name g.value) said = .error .rejected := by
  induction gs generalizing said with
  | nil => exact absurd nofun h
  | cons g gs ih =>
      rw [List.foldlM_cons]
      by_cases hg : g.IsReadable
      · rw [withValue_of_isReadable hg]
        exact ih (fun hgs => h (List.forall_mem_cons.2 ⟨hg, hgs⟩)) _
      · rw [withValue_of_not_isReadable hg]
        rfl

/-- Of several values for one option the last one counts. -/
theorem find?_having (gs : List Given) (option : TextOption) :
    (gs.foldl having .nothing).texts.find? option.key =
      (gs.filterMap (textFor? option)).getLast? := by
  induction gs using List.reverseRecOn with
  | nil => rfl
  | append_singleton gs g ih =>
      rw [List.foldl_concat, List.filterMap_append, List.getLast?_append]
      cases g with
      | limit n => exact ih
      | text o value plain =>
          by_cases ho : o = option
          · subst ho
            rw [having, Table.find?_insert_self]
            simp only [textFor?, if_true, List.filterMap_cons, List.filterMap_nil]
            rfl
          · have hkey : option.key ≠ o.key := fun h => ho (TextOption.key_inj h).symm
            rw [having, Table.find?_insert_ne _ _ hkey]
            simp only [textFor?, if_neg ho, List.filterMap_cons, List.filterMap_nil]
            exact ih

theorem find?_having_limit (gs : List Given) :
    (gs.foldl having .nothing).integers.find? "max-steps" = (gs.filterMap limit?).getLast? := by
  induction gs using List.reverseRecOn with
  | nil => rfl
  | append_singleton gs g ih =>
      rw [List.foldl_concat, List.filterMap_append, List.getLast?_append]
      cases g with
      | text o value plain => exact ih
      | limit n =>
          rw [having, Table.find?_insert_self]
          rfl

/-- Options with their values do not touch what else has been said. -/
theorem having_rest (gs : List Given) (said : Said) :
    (gs.foldl having said).plain = said.plain ∧ (gs.foldl having said).surplus = said.surplus := by
  induction gs generalizing said with
  | nil => exact ⟨rfl, rfl⟩
  | cons g gs ih =>
      obtain ⟨hplain, hsurplus⟩ := ih (having said g)
      rw [List.foldl_cons, hplain, hsurplus]
      cases g <;> exact ⟨rfl, rfl⟩

/-- Nor does the plain word touch them. -/
theorem having_withPlain {said : Said} (h : said.plain = none) (text : String) (gs : List Given) :
    gs.foldl having (said.withPlain text) = (gs.foldl having said).withPlain text := by
  induction gs generalizing said with
  | nil => rfl
  | cons g gs ih =>
      have hg : having (said.withPlain text) g = (having said g).withPlain text := by
        cases g <;> simp only [Said.withPlain, having, h, Option.isNone_none, if_true]
      rw [List.foldl_cons, List.foldl_cons, hg]
      refine ih ?_
      rw [← h]
      exact (having_rest [g] said).1

end Given

/-- The command line of a render: the template, and options in front of it and behind it. -/
structure Invocation where
  template : String
  plain : IsPlain template
  before : List Given
  behind : List Given

namespace Invocation

/-- All options with their values, in order. -/
def givens (i : Invocation) : List Given := i.before ++ i.behind

/-- The texts behind the verb. -/
def operands (i : Invocation) : List String :=
  i.before.flatMap Given.texts ++ i.template :: i.behind.flatMap Given.texts

/-- The texts of the command line. -/
def texts (i : Invocation) : List String := Verb.render.word :: i.operands

/-- The words behind the verb. -/
def words (i : Invocation) : List Word :=
  i.before.flatMap Given.words ++ .plain i.template :: i.behind.flatMap Given.words

/-- The value that counts for an option. -/
def stated (i : Invocation) (option : TextOption) : Option String :=
  (i.givens.filterMap (Given.textFor? option)).getLast?

/-- The value that counts for an option, if it is not empty. -/
def named (i : Invocation) (option : TextOption) : Option String :=
  (i.stated option).filter (!·.isEmpty)

/-- The template that is rendered, and how it finds its files. -/
def entry (i : Invocation) : Entry :=
  ⟨i.template, i.named .base, (i.stated .extension).getD Command.defaultExtension⟩

/-- The step limits that are given. -/
def limits (i : Invocation) : List Int := i.givens.filterMap Given.limit?

/-- The step limit that counts. -/
def limit (i : Invocation) : Option Int := i.limits.getLast?

/-- Can every step limit be read? -/
def IsReadable (i : Invocation) : Prop := ∀ n ∈ i.limits, Integer.IsShort n

variable {i : Invocation}

/-- What the words behind the verb say. -/
def said (i : Invocation) : Said := (i.givens.foldl Given.having .nothing).withPlain i.template

theorem ne_separator_of_mem_operands (i : Invocation) {text : String} (h : text ∈ i.operands) :
    text.toList ≠ separator := by
  rcases List.mem_append.1 h with h | h
  · exact Given.ne_separator_of_mem h
  rcases List.mem_cons.1 h with rfl | h
  · exact i.plain.ne_separator
  · exact Given.ne_separator_of_mem h

theorem wordsOf_operands (i : Invocation) :
    wordsOf Verb.render.options i.operands = .ok i.words :=
  wordsOf_eq_ok (fun _ => i.ne_separator_of_mem_operands)
    (List.rel_append (Given.forall₂_words i.before)
      (.cons i.plain.plain (Given.forall₂_words i.behind)))

/-- In front of the verb there is nothing, and what is behind it is left for the verb. -/
theorem split_texts (i : Invocation) :
    ∃ words, wordsOf Verb.sharedOptions i.texts = .ok words ∧
      Command.split false (words.zip i.texts) = .ok (false, Verb.render.word, i.operands) := by
  obtain ⟨before, hbefore⟩ := Given.exists_forall₂_shared i.before
  obtain ⟨behind, hbehind⟩ := Given.exists_forall₂_shared i.behind
  obtain ⟨word, hword⟩ := i.plain.known
  have hoperands : List.Forall₂ (fun text word => wordOf Verb.sharedOptions text = .ok word)
      i.operands (before ++ word :: behind) := List.rel_append hbefore (.cons hword hbehind)
  have hverb : IsPlain Verb.render.word := .of_no_dash (by decide)
  refine ⟨.plain Verb.render.word :: (before ++ word :: behind), wordsOf_eq_ok ?_ ?_, ?_⟩
  · refine List.forall_mem_cons.2 ⟨hverb.ne_separator, fun text hmem => ?_⟩
    exact i.ne_separator_of_mem_operands hmem
  · exact .cons (wordOf_of_no_dash (by decide)) hoperands
  · rw [texts, List.zip_cons_cons, Command.split, List.map_snd_zip (le_of_eq hoperands.length_eq)]

theorem hear_of_before (h : ∀ g ∈ i.before, g.IsReadable) :
    hear Verb.render.options .nothing i.words =
      i.behind.foldlM (fun (said : Said) g => said.withValue g.name g.value)
        ((i.before.foldl Given.having .nothing).withPlain i.template) := by
  have hend : ∀ said : Said, hear Verb.render.options said [] = .ok said := fun _ => by rw [hear]
  rw [words, Given.hear_words, Given.foldlM_of_readable h]
  show hear Verb.render.options (i.before.foldl Given.having .nothing)
    (.plain i.template :: i.behind.flatMap Given.words) = _
  rw [Given.hear_plain, ← List.append_nil (i.behind.flatMap Given.words), Given.hear_words]
  simp only [hend]
  exact bind_pure _

theorem hear_of_readable (h : ∀ g ∈ i.givens, g.IsReadable) :
    hear Verb.render.options .nothing i.words = .ok i.said := by
  obtain ⟨hbefore, hbehind⟩ := List.forall_mem_append.1 h
  have hplain : (i.before.foldl Given.having .nothing).plain = none :=
    (Given.having_rest i.before .nothing).1
  rw [hear_of_before hbefore, Given.foldlM_of_readable hbehind, Given.having_withPlain hplain,
    ← List.foldl_append]
  rfl

theorem hear_of_unreadable (h : ¬ ∀ g ∈ i.givens, g.IsReadable) :
    hear Verb.render.options .nothing i.words = .error .rejected := by
  by_cases hbefore : ∀ g ∈ i.before, g.IsReadable
  · have hbehind : ¬ ∀ g ∈ i.behind, g.IsReadable := fun hbehind =>
      h (List.forall_mem_append.2 ⟨hbefore, hbehind⟩)
    rw [hear_of_before hbefore, Given.foldlM_of_unreadable hbehind]
  · rw [words, Given.hear_words, Given.foldlM_of_unreadable hbefore]
    rfl

theorem isReadable_iff : (∀ g ∈ i.givens, g.IsReadable) ↔ i.IsReadable := by
  simp only [IsReadable, limits, List.mem_filterMap, Given.IsReadable]
  constructor
  · rintro h n ⟨g, hmem, hn⟩
    exact h g hmem n hn
  · exact fun h g hmem n hn => h n ⟨g, hmem, hn⟩

theorem said_eq (i : Invocation) :
    i.said = { i.givens.foldl Given.having .nothing with plain := some i.template } := by
  have hplain : (i.givens.foldl Given.having .nothing).plain = none :=
    (Given.having_rest i.givens .nothing).1
  rw [said, Said.withPlain, hplain]
  rfl

/-- What is said is the command that is meant. -/
theorem ofSaid_said (i : Invocation) :
    Command.ofSaid i.said i.template .render = .render i.entry (i.named .context)
      ((i.limit.filter (· ≠ 0)).map fun n => ⟨some n⟩) (i.named .out) := by
  have htexts : ∀ option : TextOption, i.said.texts.find? option.key = i.stated option := by
    intro option
    rw [said_eq]
    exact Given.find?_having i.givens option
  have hlimit : i.said.integers.find? "max-steps" = i.limit := by
    rw [said_eq]
    exact Given.find?_having_limit i.givens
  have hnamed : ∀ option : TextOption, Command.stated i.said option.key = i.named option := by
    intro option
    rw [Command.stated, htexts, named]
  have hentry : Command.ofSaid.entry i.said i.template = i.entry := by
    show Entry.mk _ (Command.stated _ TextOption.base.key)
      ((i.said.texts.find? TextOption.extension.key).getD _) = _
    rw [hnamed, htexts, entry]
  show Command.render _ (Command.stated _ TextOption.context.key) _
    (Command.stated _ TextOption.out.key) = _
  rw [hentry, hnamed, hnamed, Command.statedLimits, hlimit]

/-- If the step limits can be read, the command line is the command that it is meant to be. -/
theorem ofTexts_texts (h : i.IsReadable) :
    Command.ofTexts i.texts = .ok (.render i.entry (i.named .context)
      ((i.limit.filter (· ≠ 0)).map fun n => ⟨some n⟩) (i.named .out)) := by
  obtain ⟨words, hwords, hsplit⟩ := i.split_texts
  have hverb : Verb.all.find? (·.word = Verb.render.word) = some .render := rfl
  have hheard := hear_of_readable (isReadable_iff.2 h)
  have hplain : i.said.plain = some i.template := by rw [said_eq]
  have hsurplus : i.said.surplus = false := by
    rw [said_eq]
    exact (Given.having_rest i.givens .nothing).2
  simp only [Command.ofTexts, hwords, hsplit, hverb, i.wordsOf_operands, hheard, hplain, hsurplus,
    i.ofSaid_said, Except.mapError, Bind.bind, Except.bind, Bool.or_self, Bool.false_eq_true,
    if_false]

/-- If one of them cannot be read, the command line is rejected. -/
theorem ofTexts_of_unreadable (h : ¬ i.IsReadable) :
    Command.ofTexts i.texts = .error ⟨some .render, .rejected⟩ := by
  obtain ⟨words, hwords, hsplit⟩ := i.split_texts
  have hverb : Verb.all.find? (·.word = Verb.render.word) = some .render := rfl
  have hheard := hear_of_unreadable fun hall => h (isReadable_iff.1 hall)
  simp only [Command.ofTexts, hwords, hsplit, hverb, i.wordsOf_operands, hheard, Except.mapError,
    Bind.bind, Except.bind]

end Invocation

end Stencil
