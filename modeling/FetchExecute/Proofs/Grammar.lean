import FetchExecute.Console.Application
import FetchExecute.Proofs.Numeral
import Mathlib.Data.List.Induction

/-!
# The grammar of the command line

Arguments are read as items, each of which sets something: a flag, or an option and its
value.  The parser takes one item after the other off the front
(`Console.Request.parseFrom_items`), and what it accepts is made of items
(`Console.Request.exists_items`).  An option takes whatever argument comes next as its
value, so where an item begins depends on those before it.

| the arguments | what they are |
|---|---|
| items, with a machine among them if there is a program | a run with what the items set |
| items, then a word for help, then anything | a request for help |
| anything else | an error, which is told with the help text |

What items set is seen from which of them occur and which machine and program come last
(`Console.Options.Reflects`), so their order counts only among machines and among
programs.
-/

namespace FetchExecute

/-! ## Values -/

namespace Numeral

/-- The text is a decimal numeral for the number, perhaps with a plus sign or leading zeros. -/
def Denotes (text : String) (n : Nat) : Prop :=
  ∃ ds : List Char, (text.toList = ds ∨ text.toList = '+' :: ds) ∧ ds ≠ [] ∧
    (∀ c ∈ ds, c.isDigit = true) ∧ value 10 ds = n

/-- Digits are read if there is one at least and their number is below the limit. -/
theorem ofDigits?_eq_some_iff {ds : List Char} {n : Nat} :
    ofDigits? ds = some n ↔
      ds ≠ [] ∧ (∀ c ∈ ds, c.isDigit = true) ∧ value 10 ds = n ∧ n < limit := by
  simp only [ofDigits?, Option.ite_none_right_eq_some, List.all_eq_true, Option.some.injEq]
  constructor
  · rintro ⟨⟨hne, hdigits⟩, hlt, rfl⟩
    rw [ofDigitChars_eq_value hdigits] at hlt ⊢
    exact ⟨hne, hdigits, rfl, hlt⟩
  · rintro ⟨hne, hdigits, rfl, hlt⟩
    rw [ofDigitChars_eq_value hdigits]
    exact ⟨⟨hne, hdigits⟩, hlt, rfl⟩

/-- A text is read as a number exactly if it is a numeral for it that is below the limit. -/
theorem ofDecimal?_eq_some_iff {text : String} {n : Nat} :
    ofDecimal? text = some n ↔ Denotes text n ∧ n < limit := by
  constructor
  · intro h
    rw [ofDecimal?] at h
    split at h
    · next ds htext =>
      obtain ⟨hne, hdigits, hvalue, hlt⟩ := ofDigits?_eq_some_iff.mp h
      exact ⟨⟨ds, .inr htext, hne, hdigits, hvalue⟩, hlt⟩
    · obtain ⟨hne, hdigits, hvalue, hlt⟩ := ofDigits?_eq_some_iff.mp h
      exact ⟨⟨_, .inl rfl, hne, hdigits, hvalue⟩, hlt⟩
  · rintro ⟨⟨ds, htext, hne, hdigits, hvalue⟩, hlt⟩
    have hread := ofDigits?_eq_some_iff.mpr ⟨hne, hdigits, hvalue, hlt⟩
    rw [ofDecimal?]
    rcases htext with htext | htext
    · rw [htext]
      split
      · next ds' =>
        -- a plus sign is no digit
        exact absurd (hdigits '+' List.mem_cons_self) (by decide)
      · exact hread
    · rw [htext]
      exact hread

end Numeral

theorem Console.ofNumber?_eq_some_iff {text : String} {n : Nat} :
    ofNumber? text = some n ↔ Numeral.Denotes text (n + 1) ∧ n + 1 < Numeral.limit := by
  rw [← Numeral.ofDecimal?_eq_some_iff, ofNumber?]
  cases h : Numeral.ofDecimal? text with
  | none => simp
  | some k =>
    cases k with
    | zero => simp
    | succ k => simp

namespace Architecture

/-- The keys for a machine, in small letters. -/
def keys : Architecture → List String
  | .hypothetical => ["hypothetical", "hyp"]
  | .ias => ["ias"]

/-- A machine is known by its keys, in capital or small letters. -/
theorem ofKey?_eq_some_iff {a : Architecture} {key : String} :
    ofKey? key = some a ↔ key.toLower ∈ a.keys := by
  unfold ofKey?
  generalize key.toLower = key
  constructor
  · intro h
    split at h
    all_goals cases h
    all_goals decide
  · revert key
    cases a <;> decide

end Architecture

namespace Console

/-- The words for a flag. -/
def Flag.words : Flag → List String
  | .help => ["-h", "--help"]
  | .auto => ["-a", "--auto"]
  | .list => ["-l", "--list"]
  | .verbose => ["-v", "--verbose"]
  | .profile => ["-p", "--profile"]
  | .program => ["-n", "--program"]

theorem Flag.ofText?_eq_some_iff {f : Flag} {text : String} :
    ofText? text = some f ↔ text ∈ f.words := by
  constructor
  · intro h
    unfold ofText? at h
    split at h
    all_goals cases h
    all_goals decide
  · revert text
    cases f <;> decide

/-! ## Items -/

/-- What an item sets. -/
inductive Setting where
  | auto
  | list
  | verbose
  | architecture (a : Architecture)
  /-- The program of the catalog, counted from zero. -/
  | program (id : Nat)
deriving DecidableEq, Repr

/-- The arguments are an item that sets this. -/
inductive Setting.Spelled : Setting → List String → Prop
  | auto {arg : String} : arg ∈ Flag.auto.words → Spelled .auto [arg]
  | list {arg : String} : arg ∈ Flag.list.words → Spelled .list [arg]
  | verbose {arg : String} : arg ∈ Flag.verbose.words → Spelled .verbose [arg]
  | architecture {arg key : String} {a : Architecture} : arg ∈ Flag.profile.words →
      key.toLower ∈ a.keys → Spelled (.architecture a) [arg, key]
  | program {arg text : String} {id : Nat} : arg ∈ Flag.program.words →
      Numeral.Denotes text (id + 1) → id + 1 < Numeral.limit → Spelled (.program id) [arg, text]

/-- Arguments that set something. -/
structure Item where
  setting : Setting
  args : List String
  spelled : setting.Spelled args

/-- Behind some items the arguments ask for help. -/
def AsksHelp (args : List String) : Prop :=
  ∃ (items : List Item) (arg : String) (rest : List String), arg ∈ Flag.help.words ∧
    args = items.flatMap Item.args ++ arg :: rest

theorem AsksHelp.cons {args : List String} (item : Item) (h : AsksHelp args) :
    AsksHelp (item.args ++ args) := by
  obtain ⟨items, arg, rest, harg, rfl⟩ := h
  exact ⟨item :: items, arg, rest, harg, (List.append_assoc _ _ _).symm⟩

namespace Options

def set (o : Options) : Setting → Options
  | .auto => { o with auto := true }
  | .list => { o with list := true }
  | .verbose => { o with verbose := true }
  | .architecture a => { o with architecture := some a }
  | .program id => { o with program := some id }

/-- The options after these settings, in order. -/
def after (o : Options) (settings : List Setting) : Options := settings.foldl set o

end Options

namespace Request

variable {o : Options} {args rest : List String} {arg : String} {r : Request}

/-- An item is read whole, and changes the options by its setting. -/
theorem parseFrom_item (o : Options) (item : Item) (rest : List String) :
    parseFrom o (item.args ++ rest) = parseFrom (o.set item.setting) rest := by
  obtain ⟨s, args, hspelled⟩ := item
  cases hspelled with
  | auto harg | list harg | verbose harg =>
    have hflag := Flag.ofText?_eq_some_iff.mpr harg
    simp only [List.singleton_append, parseFrom.eq_def o (_ :: rest), hflag, Options.set]
  | architecture harg hkey =>
    have hflag := Flag.ofText?_eq_some_iff.mpr harg
    have ha := Architecture.ofKey?_eq_some_iff.mpr hkey
    simp only [List.cons_append, List.nil_append, parseFrom.eq_def o (_ :: _), hflag, ha,
      Options.set]
  | program harg htext hlt =>
    have hflag := Flag.ofText?_eq_some_iff.mpr harg
    have hid := ofNumber?_eq_some_iff.mpr ⟨htext, hlt⟩
    simp only [List.cons_append, List.nil_append, parseFrom.eq_def o (_ :: _), hflag, hid,
      Options.set]

/-- Items are read one after the other. -/
theorem parseFrom_items (o : Options) (items : List Item) (rest : List String) :
    parseFrom o (items.flatMap Item.args ++ rest) =
      parseFrom (o.after (items.map Item.setting)) rest := by
  induction items generalizing o with
  | nil => rfl
  | cons item items ih =>
    rw [List.flatMap_cons, List.append_assoc, parseFrom_item, ih]
    rfl

theorem parseFrom_help (o : Options) (harg : arg ∈ Flag.help.words) (rest : List String) :
    parseFrom o (arg :: rest) = .ok .help := by
  rw [parseFrom.eq_def]
  simp only [Flag.ofText?_eq_some_iff.mpr harg]

theorem exists_items_cons (item : Item)
    (h : (∃ items : List Item, args = items.flatMap Item.args) ∨ AsksHelp args) :
    (∃ items : List Item, item.args ++ args = items.flatMap Item.args) ∨
      AsksHelp (item.args ++ args) := by
  rcases h with ⟨items, rfl⟩ | hhelp
  · exact .inl ⟨item :: items, rfl⟩
  · exact .inr (hhelp.cons item)

/-- What is accepted consists of items, unless it asks for help. -/
theorem exists_items (h : parseFrom o args = .ok r) :
    (∃ items : List Item, args = items.flatMap Item.args) ∨ AsksHelp args := by
  -- Of the ways in which the parser goes on, those that are missing here are errors.
  fun_induction parseFrom o args with
  | case2 o => exact .inl ⟨[], rfl⟩
  | case4 o arg rest hflag =>
    exact .inr ⟨[], arg, rest, Flag.ofText?_eq_some_iff.mp hflag, rfl⟩
  | case5 o arg rest hflag ih =>
    exact exists_items_cons ⟨.auto, [arg], .auto (Flag.ofText?_eq_some_iff.mp hflag)⟩ (ih h)
  | case6 o arg rest hflag ih =>
    exact exists_items_cons ⟨.list, [arg], .list (Flag.ofText?_eq_some_iff.mp hflag)⟩ (ih h)
  | case7 o arg rest hflag ih =>
    exact exists_items_cons ⟨.verbose, [arg], .verbose (Flag.ofText?_eq_some_iff.mp hflag)⟩ (ih h)
  | case9 o arg hflag value rest a hvalue ih =>
    exact exists_items_cons ⟨.architecture a, [arg, value], .architecture
      (Flag.ofText?_eq_some_iff.mp hflag) (Architecture.ofKey?_eq_some_iff.mp hvalue)⟩ (ih h)
  | case12 o arg hflag value rest n hvalue ih =>
    obtain ⟨htext, hlt⟩ := ofNumber?_eq_some_iff.mp hvalue
    exact exists_items_cons ⟨.program n, [arg, value], .program
      (Flag.ofText?_eq_some_iff.mp hflag) htext hlt⟩ (ih h)
  | _ => cases h

end Request

/-! ## What items set -/

namespace Setting

def architecture? : Setting → Option Architecture
  | .architecture a => some a
  | _ => none

def program? : Setting → Option Nat
  | .program id => some id
  | _ => none

variable {s : Setting} {a : Architecture} {id : Nat} {settings : List Setting}

theorem architecture?_eq_some_iff : s.architecture? = some a ↔ s = .architecture a := by
  cases s <;> simp [architecture?]

theorem program?_eq_some_iff : s.program? = some id ↔ s = .program id := by
  cases s <;> simp [program?]

/-- If a program is set, then so is a machine. -/
def Complete (settings : List Setting) : Prop :=
  (∃ id, .program id ∈ settings) → ∃ a, .architecture a ∈ settings

/-- Among settings of one kind there is a last one if there are any. -/
theorem isSome_getLast?_filterMap {α : Type} {f : Setting → Option α} {toSetting : α → Setting}
    (hf : ∀ {s a}, f s = some a ↔ s = toSetting a) :
    (settings.filterMap f).getLast?.isSome = true ↔ ∃ a, toSetting a ∈ settings := by
  have hmem : ∀ a, a ∈ settings.filterMap f ↔ toSetting a ∈ settings := by
    intro a
    simp only [List.mem_filterMap, hf, exists_eq_right]
  rw [List.getLast?_isSome]
  constructor
  · intro hne
    obtain ⟨a, ha⟩ := List.exists_mem_of_ne_nil _ hne
    exact ⟨a, (hmem a).mp ha⟩
  · rintro ⟨a, ha⟩
    exact List.ne_nil_of_mem ((hmem a).mpr ha)

end Setting

namespace Options

variable {o o' : Options} {settings settings' : List Setting}

/-- The options are what these settings come to: of the machines and of the programs, the last
one counts. -/
structure Reflects (o : Options) (settings : List Setting) : Prop where
  auto : o.auto = true ↔ .auto ∈ settings
  list : o.list = true ↔ .list ∈ settings
  verbose : o.verbose = true ↔ .verbose ∈ settings
  architecture : o.architecture = (settings.filterMap Setting.architecture?).getLast?
  program : o.program = (settings.filterMap Setting.program?).getLast?

/-- What one more setting changes. -/
theorem Reflects.set (h : o.Reflects settings) (s : Setting) :
    (o.set s).Reflects (settings ++ [s]) where
  auto := by cases s <;> simp [Options.set, h.auto]
  list := by cases s <;> simp [Options.set, h.list]
  verbose := by cases s <;> simp [Options.set, h.verbose]
  architecture := by cases s <;> simp [Options.set, Setting.architecture?, h.architecture]
  program := by cases s <;> simp [Options.set, Setting.program?, h.program]

/-- Settings made one after another are reflected by the options. -/
theorem reflects_after (settings : List Setting) :
    (({} : Options).after settings).Reflects settings := by
  induction settings using List.reverseRecOn with
  | nil => constructor <;> simp [after]
  | append_singleton settings s ih =>
    rw [after, List.foldl_concat]
    exact ih.set s

/-- Options are determined by the settings that they reflect. -/
theorem Reflects.unique (h : o.Reflects settings) (h' : o'.Reflects settings) : o = o' := by
  obtain ⟨architecture, program, auto, list, verbose⟩ := o
  obtain ⟨architecture', program', auto', list', verbose'⟩ := o'
  obtain rfl : architecture = architecture' := h.architecture.trans h'.architecture.symm
  obtain rfl : program = program' := h.program.trans h'.program.symm
  obtain rfl : auto = auto' := Bool.eq_iff_iff.mpr (h.auto.trans h'.auto.symm)
  obtain rfl : list = list' := Bool.eq_iff_iff.mpr (h.list.trans h'.list.symm)
  obtain rfl : verbose = verbose' := Bool.eq_iff_iff.mpr (h.verbose.trans h'.verbose.symm)
  rfl

/-- Settings come to the same in any order that keeps machines in order, and programs. -/
theorem Reflects.perm (h : o.Reflects settings) (hperm : settings.Perm settings')
    (ha : settings.filterMap Setting.architecture? = settings'.filterMap Setting.architecture?)
    (hid : settings.filterMap Setting.program? = settings'.filterMap Setting.program?) :
    o.Reflects settings' where
  auto := h.auto.trans hperm.mem_iff
  list := h.list.trans hperm.mem_iff
  verbose := h.verbose.trans hperm.mem_iff
  architecture := ha ▸ h.architecture
  program := hid ▸ h.program

/-- Settings are incomplete exactly if there is a program without a machine. -/
theorem Reflects.complete_iff (h : o.Reflects settings) :
    Setting.Complete settings ↔ ¬ (o.program.isSome ∧ o.architecture.isNone) := by
  have hprogram : o.program.isSome = true ↔ ∃ id, .program id ∈ settings := by
    rw [h.program]
    exact Setting.isSome_getLast?_filterMap Setting.program?_eq_some_iff
  have harchitecture : o.architecture.isSome = true ↔ ∃ a, .architecture a ∈ settings := by
    rw [h.architecture]
    exact Setting.isSome_getLast?_filterMap Setting.architecture?_eq_some_iff
  rw [Setting.Complete, ← hprogram, ← harchitecture, not_and, Bool.not_eq_true,
    Option.isNone_eq_false_iff]

end Options

/-! ## What the arguments come to -/

/-- The arguments are items, with a machine among them if there is a program. -/
def Runs (args : List String) : Prop :=
  ∃ items : List Item, args = items.flatMap Item.args ∧ Setting.Complete (items.map Item.setting)

namespace Request

variable {args : List String} {items items' : List Item} {o : Options}

theorem parse_items (items : List Item) (rest : List String) :
    parse (items.flatMap Item.args ++ rest) =
      parseFrom (({} : Options).after (items.map Item.setting)) rest :=
  parseFrom_items {} items rest

/-- Items alone are accepted with the options they set, unless these lack a machine. -/
theorem parse_of_reflects (h : o.Reflects (items.map Item.setting)) :
    parse (items.flatMap Item.args) =
      if o.program.isSome ∧ o.architecture.isNone then .error .programWithoutProfile
      else .ok (.run o) := by
  obtain rfl := h.unique (Options.reflects_after (items.map Item.setting))
  have hparse := parse_items items []
  rwa [List.append_nil, parseFrom] at hparse

theorem reflects_of_parse (h : parse (items.flatMap Item.args) = .ok (.run o)) :
    o.Reflects (items.map Item.setting) ∧ Setting.Complete (items.map Item.setting) := by
  have hafter := Options.reflects_after (items.map Item.setting)
  rw [parse_of_reflects hafter] at h
  split at h
  · cases h
  · next hcomplete =>
    cases h
    exact ⟨hafter, hafter.complete_iff.mpr hcomplete⟩

/-- A question for help is answered whatever stands behind it, and even if the items before it are
incomplete. -/
theorem parse_eq_help_of_asksHelp (h : AsksHelp args) : parse args = .ok .help := by
  obtain ⟨items, arg, rest, harg, rfl⟩ := h
  rw [parse_items, parseFrom_help _ harg]

theorem exists_parse_iff_runs : (∃ o, parse args = .ok (.run o)) ↔ Runs args := by
  constructor
  · rintro ⟨o, h⟩
    rcases exists_items h with ⟨items, rfl⟩ | hhelp
    · exact ⟨items, rfl, (reflects_of_parse h).2⟩
    · rw [parse_eq_help_of_asksHelp hhelp] at h
      cases h
  · rintro ⟨items, rfl, hcomplete⟩
    have hafter := Options.reflects_after (items.map Item.setting)
    exact ⟨_, (parse_of_reflects hafter).trans (if_neg (hafter.complete_iff.mp hcomplete))⟩

/-- Help is shown exactly if it is asked for behind some items. -/
theorem parse_eq_help_iff : parse args = .ok .help ↔ AsksHelp args := by
  constructor
  · intro h
    rcases exists_items h with ⟨items, rfl⟩ | hhelp
    · rw [parse_of_reflects (Options.reflects_after _)] at h
      split at h <;> cases h
    · exact hhelp
  · exact parse_eq_help_of_asksHelp

/-- The order of items counts among machines and among programs only. -/
theorem parse_perm (hperm : items.Perm items')
    (ha : items.filterMap (·.setting.architecture?) = items'.filterMap (·.setting.architecture?))
    (hid : items.filterMap (·.setting.program?) = items'.filterMap (·.setting.program?))
    (rest : List String) :
    parse (items.flatMap Item.args ++ rest) = parse (items'.flatMap Item.args ++ rest) := by
  have hafter := Options.reflects_after (items.map Item.setting)
  have hafter' := hafter.perm (hperm.map Item.setting)
    (by rwa [List.filterMap_map, List.filterMap_map])
    (by rwa [List.filterMap_map, List.filterMap_map])
  rw [parse_items, parse_items, hafter'.unique (Options.reflects_after _)]

/-- What neither runs nor asks for help is an error. -/
theorem exists_error (hruns : ¬ Runs args) (hhelp : ¬ AsksHelp args) :
    ∃ e, parse args = .error e := by
  cases h : parse args with
  | error e => exact ⟨e, rfl⟩
  | ok r =>
    cases r with
    | help => exact absurd (parse_eq_help_iff.mp h) hhelp
    | run o => exact absurd (exists_parse_iff_runs.mp ⟨o, h⟩) hruns

end Request

/-- Of arguments that are rejected nothing comes but the usage, and no line is read. -/
theorem run_of_error {args : List String} {e : ArgumentError} (h : Request.parse args = .error e)
    (input : List UInt8) : run args input = ⟨[], .badArguments e, linesOf input⟩ := by
  rw [run, opening, h]
  rfl

end Console

open Console

/-- The parser accepts what its grammar says and nothing else.  Arguments run if they are items,
with a machine among them if there is a program, and then the options are what the items set; they
ask for help if a word for help follows some items; and all other arguments are told to be wrong,
with the help text and exit code 1, while nothing is printed and no input read.  Items can be put in
another order if machines stay in order, and programs. -/
theorem parse_follows_grammar :
    (∀ args, (∃ o, Request.parse args = .ok (.run o)) ↔ Runs args) ∧
    (∀ {items : List Item} {o : Options}, Request.parse (items.flatMap Item.args) = .ok (.run o) →
      o.Reflects (items.map Item.setting)) ∧
    (∀ {items items' : List Item}, items.Perm items' →
      items.filterMap (·.setting.architecture?) = items'.filterMap (·.setting.architecture?) →
      items.filterMap (·.setting.program?) = items'.filterMap (·.setting.program?) →
      ∀ rest, Request.parse (items.flatMap Item.args ++ rest) =
        Request.parse (items'.flatMap Item.args ++ rest)) ∧
    (∀ args, Request.parse args = .ok .help ↔ AsksHelp args) ∧
    ∀ args, ¬ Runs args → ¬ AsksHelp args → ∃ e, Request.parse args = .error e ∧
      ∀ input, run args input = ⟨[], ⟨1, ("error: " ++ e.message) :: usage⟩, linesOf input⟩ := by
  refine ⟨fun _ ↦ Request.exists_parse_iff_runs, fun h ↦ (Request.reflects_of_parse h).1,
    Request.parse_perm, fun _ ↦ Request.parse_eq_help_iff, ?_⟩
  intro args hruns hhelp
  obtain ⟨e, he⟩ := Request.exists_error hruns hhelp
  exact ⟨e, he, run_of_error he⟩

/-- Two programs, a flag and a machine. -/
def Console.Item.secondProgram : List Item :=
  [⟨.program 6, ["-n", "7"],
      .program (by decide) ⟨['7'], .inl rfl, nofun, List.all_eq_true.mp rfl, rfl⟩ (by decide)⟩,
    ⟨.auto, ["-a"], .auto (by decide)⟩,
    ⟨.program 1, ["--program", "+02"],
      .program (by decide) ⟨['0', '2'], .inr rfl, nofun, List.all_eq_true.mp rfl, rfl⟩ (by decide)⟩,
    ⟨.architecture .ias, ["-p", "IAS"], .architecture (by decide) (by decide +kernel)⟩]

theorem parse_follows_grammar_secondProgram :
    Request.parse ["-n", "7", "-a", "--program", "+02", "-p", "IAS"] =
      .ok (.run ⟨some .ias, some 1, true, false, false⟩) ∧
    Request.parse ["-a", "-n", "7", "--program", "+02", "-p", "IAS", "-h", "-x"] =
      Request.parse ["-n", "7", "-a", "--program", "+02", "-p", "IAS", "-h", "-x"] ∧
    Request.parse ["-n", "7", "-h", "-x"] = .ok .help ∧
    ∃ e, Request.parse ["-n", "-h"] = .error e ∧ ∀ input, run ["-n", "-h"] input =
      ⟨[], ⟨1, ("error: " ++ e.message) :: usage⟩, linesOf input⟩ := by
  obtain ⟨hruns, hreflects, hperm, hhelp, herror⟩ := parse_follows_grammar
  refine ⟨?_, ?_, ?_, ?_⟩
  · have hcomplete : Setting.Complete (Item.secondProgram.map Item.setting) :=
      fun _ ↦ ⟨.ias, by decide⟩
    have hwanted : Options.Reflects ⟨some .ias, some 1, true, false, false⟩
        (Item.secondProgram.map Item.setting) := by constructor <;> decide
    obtain ⟨o, ho⟩ := (hruns _).mpr ⟨Item.secondProgram, rfl, hcomplete⟩
    obtain rfl := (hreflects ho).unique hwanted
    exact ho
  · have hswap := (Item.secondProgram.take 2).reverse_perm.append_right (Item.secondProgram.drop 2)
    exact hperm hswap rfl rfl ["-h", "-x"]
  · exact (hhelp _).mpr ⟨Item.secondProgram.take 1, "-h", ["-x"], by decide, by decide⟩
  · -- the word for help is taken as the value of the option
    have hparse : Request.parse ["-n", "-h"] = .error (.invalidProgram "-h") := by rfl
    apply herror
    · intro hitems
      obtain ⟨o, ho⟩ := (hruns _).mpr hitems
      rw [hparse] at ho
      cases ho
    · intro hasks
      have hok := (hhelp _).mpr hasks
      rw [hparse] at hok
      cases hok

end FetchExecute
