import Mathlib
import Formulary.CommandLine.Run
import Formulary.Proofs.Report
import Formulary.Proofs.Writing

set_option autoImplicit false

namespace Formulary

/-- Settings that may be left open. -/
structure Layer where
  blockModule : Option String
  sampleMain : Option Bool
  header : Option String

namespace Layer

def empty : Layer := ⟨none, none, none⟩

/-- A setting that a layer leaves open is the one below. -/
def onto (layer : Layer) (below : Settings) : Settings :=
  ⟨layer.blockModule.getD below.blockModule, layer.sampleMain.getD below.sampleMain,
    layer.header.getD below.header⟩

/-- The environment may name a module. Blanks alone are no name. -/
def ofEnvironment (environment : Option String) : Layer :=
  { empty with blockModule := (environment.map Text.trim).filter (· ≠ "") }

/-- The options may name a module, and may ask for the sample entry point. -/
def ofOptions (options : Options) : Layer :=
  { empty with
    blockModule := options.blockModule
    sampleMain := if options.sampleMain then some true else none }

/-- A layer is that of a document if each of its settings is there, with a value of its type, or
left out of both. -/
structure Holds (layer : Layer) (entries : Toml.Entries) : Prop where
  blockModule : entries.lookup "building_block_module" =
    layer.blockModule.map fun value => .scalar (.string value)
  sampleMain : entries.lookup "include_sample_main" =
    layer.sampleMain.map fun value => .scalar (.boolean value)
  header : entries.lookup "header" = layer.header.map fun value => .scalar (.string value)

end Layer

namespace Settings

theorem textAt_eq_some {entries : Toml.Entries} {key fallback found : String} :
    textAt entries key fallback = some found ↔
      ∃ value : Option String, entries.lookup key = value.map (fun text => .scalar (.string text)) ∧
        value.getD fallback = found := by
  unfold textAt
  simp only [Option.exists, Option.map_none, Option.map_some, Option.getD_none, Option.getD_some]
  split <;> grind

theorem flagAt_eq_some {entries : Toml.Entries} {key : String} {fallback found : Bool} :
    flagAt entries key fallback = some found ↔
      ∃ value : Option Bool, entries.lookup key = value.map (fun flag => .scalar (.boolean flag)) ∧
        value.getD fallback = found := by
  unfold flagAt
  simp only [Option.exists, Option.map_none, Option.map_some, Option.getD_none, Option.getD_some]
  split <;> grind

/-- The settings of a document are its layer over the defaults. -/
theorem ofEntries_eq_some {entries : Toml.Entries} {settings : Settings} :
    ofEntries entries = some settings ↔
      ∃ layer : Layer, layer.Holds entries ∧ settings = layer.onto default := by
  simp only [ofEntries, Option.bind_eq_bind, Option.bind_eq_some_iff, textAt_eq_some,
    flagAt_eq_some, pure, Option.some.injEq]
  constructor
  · rintro ⟨_, ⟨blocks, named, rfl⟩, _, ⟨sample, asked, rfl⟩, _, ⟨header, titled, rfl⟩, rfl⟩
    exact ⟨⟨blocks, sample, header⟩, ⟨named, asked, titled⟩, rfl⟩
  · rintro ⟨layer, ⟨named, asked, titled⟩, rfl⟩
    exact ⟨_, ⟨_, named, rfl⟩, _, ⟨_, asked, rfl⟩, _, ⟨_, titled, rfl⟩, rfl⟩

theorem ofText_eq_ok {text : String} {settings : Settings} :
    ofText text = .ok settings ↔
      ∃ entries, Toml.parse? text = some entries ∧
        ∃ layer : Layer, layer.Holds entries ∧ settings = layer.onto default := by
  simp only [← ofEntries_eq_some, ← Option.bind_eq_some_iff, ofText]
  cases (Toml.parse? text).bind ofEntries <;> simp

theorem ofFile_eq_ok {path : String} {environment : Option String}
    {read : Except FileFault String} {settings : Settings} :
    ofFile path environment read = .ok settings ↔
      ∃ text, read = .ok text ∧
        ∃ loaded, ofText text = .ok loaded ∧ settings = loaded.withEnvironment environment := by
  cases read with
  | error cause => simp [ofFile]
  | ok text =>
    simp only [ofFile, Except.ok.injEq, exists_eq_left']
    cases ofText text <;> simp [Except.map, eq_comm]

theorem withEnvironment_eq (environment : Option String) (settings : Settings) :
    settings.withEnvironment environment = (Layer.ofEnvironment environment).onto settings := by
  unfold withEnvironment Layer.ofEnvironment
  cases environment.map Text.trim with
  | none => rfl
  | some name =>
    by_cases blank : name = ""
    · subst blank
      rfl
    · simp [Option.filter, blank, Layer.onto, Layer.empty]

end Settings

theorem Options.adjust_eq (options : Options) (settings : Settings) :
    options.adjust settings = (Layer.ofOptions options).onto settings := by
  unfold adjust Layer.ofOptions
  cases options.sampleMain <;> rfl

namespace Options

/-- The layer of the document that the options name. Without one it is empty. -/
def ReadsLayer (options : Options) (files : Files) (layer : Layer) : Prop :=
  match options.config with
  | none => layer = .empty
  | some path => ∃ text entries, files.readText path = .ok text ∧
      Toml.parse? text = some entries ∧ layer.Holds entries

/-- The settings of a run: the options over the environment over the document over the defaults. -/
def Configures (options : Options) (files : Files) (environment : Option String)
    (settings : Settings) : Prop :=
  ∃ layer, options.ReadsLayer files layer ∧
    settings = (Layer.ofOptions options).onto
      ((Layer.ofEnvironment environment).onto (layer.onto .default))

/-- The rulebook of a run. -/
def Loads (options : Options) (files : Files) (rulebook : Rulebook) : Prop :=
  ∃ text, files.readText options.input = .ok text ∧ Rulebook.ofText text = .ok rulebook

/-- The settings on a tree of files, before the options are looked at. -/
def settingsOn (options : Options) (files : Files) (environment : Option String) :
    Except SettingsFault Settings :=
  match options.config with
  | none => .ok (Settings.default.withEnvironment environment)
  | some path => Settings.ofFile path environment (files.readText path)

theorem configures_iff {options : Options} {files : Files} {environment : Option String}
    {settings : Settings} :
    options.Configures files environment settings ↔
      ∃ loaded, options.settingsOn files environment = .ok loaded ∧
        settings = options.adjust loaded := by
  unfold Configures ReadsLayer settingsOn
  cases options.config with
  | none => simp [Settings.withEnvironment_eq, adjust_eq, Layer.onto, Layer.empty]
  | some path =>
    simp only [Settings.ofFile_eq_ok, Settings.ofText_eq_ok, Settings.withEnvironment_eq, adjust_eq]
    grind

theorem Loads.unique {options : Options} {files : Files} {first second : Rulebook}
    (left : options.Loads files first) (right : options.Loads files second) : first = second := by
  obtain ⟨text, read, found⟩ := left
  obtain ⟨same, again, other⟩ := right
  cases read.symm.trans again
  exact Except.ok.inj (found.symm.trans other)

theorem loads_iff {options : Options} {files : Files} {rulebook : Rulebook} :
    options.Loads files rulebook ↔
      Rulebook.ofFile options.input (files.readText options.input) = .ok rulebook := by
  unfold Loads Rulebook.ofFile
  cases files.readText options.input <;> simp

end Options

namespace Files

theorem bind_apply {α β : Type} (action : StateM Files α) (next : α → StateM Files β)
    (files : Files) : (action >>= next) files = next (action files).1 (action files).2 :=
  rfl

theorem disk_writeText (path text : String) (files : Files) :
    disk.writeText path text files =
      match files.writeText path text with
      | .ok after => (.ok (), after)
      | .error fault => (.error fault, files) := by
  show (match files.writeText path text with
    | .ok after => do set after; return .ok ()
    | .error fault => return .error fault : StateM Files (Except FileFault Unit)) files = _
  cases files.writeText path text <;> rfl

end Files

/-- Some member has a rule that cannot be compiled. -/
def Rulebook.Fails (rulebook : Rulebook) : Prop :=
  ∃ entity ∈ rulebook.entities, entity.failures ≠ []

namespace Options

/-- The part of a run before its report: the module, and the tree that it has been written to, or
how the run ends without. -/
def attempt (options : Options) (files : Files) (environment : Option String) :
    Except Outcome (ModuleCode × Files) :=
  match options.settingsOn files environment with
  | .error fault => .error (.failed ("loading config " ++ options.config.getD "") fault.message)
  | .ok settings =>
    match Rulebook.ofFile options.input (files.readText options.input) with
    | .error fault => .error (.failed ("loading schema " ++ options.input) fault.message)
    | .ok rulebook =>
      let code := ModuleCode.ofRulebook (options.adjust settings) rulebook
      match files.writeText options.output code.source with
      | .error fault => .error (.failed ("writing " ++ options.output) fault.message)
      | .ok after => .ok (code, after)

/-- The rest of a run. -/
def finish (options : Options) (files : Files) :
    Except Outcome (ModuleCode × Files) → Outcome × Files
  | .error outcome => (outcome, files)
  | .ok (code, after) => (options.report code, after)

theorem loadSettings_disk (options : Options) (files : Files) (environment : Option String) :
    options.loadSettings Files.disk environment files =
      (options.settingsOn files environment, files) := by
  unfold loadSettings settingsOn
  cases options.config <;> rfl

theorem run_disk (options : Options) (files : Files) (environment : Option String) :
    options.run Files.disk environment files =
      options.finish files (options.attempt files environment) := by
  unfold run attempt
  rw [Files.bind_apply, loadSettings_disk]
  cases options.settingsOn files environment with
  | error fault => rfl
  | ok settings =>
    have read : options.loadRulebook Files.disk files =
      (Rulebook.ofFile options.input (files.readText options.input), files) := rfl
    dsimp only
    rw [Files.bind_apply, read]
    cases Rulebook.ofFile options.input (files.readText options.input) with
    | error fault => rfl
    | ok rulebook =>
      dsimp only
      rw [Files.bind_apply, Files.disk_writeText]
      cases files.writeText options.output
        (ModuleCode.ofRulebook (options.adjust settings) rulebook).source <;> rfl

theorem attempt_eq_ok {options : Options} {files after : Files} {environment : Option String}
    {code : ModuleCode} :
    options.attempt files environment = .ok (code, after) ↔
      ∃ settings rulebook place, options.Configures files environment settings ∧
        options.Loads files rulebook ∧ files.target options.output = .ok place ∧
        code = .ofRulebook settings rulebook ∧ after = files.put place code.source.toUTF8 := by
  simp only [configures_iff, loads_iff]
  unfold attempt
  cases options.settingsOn files environment with
  | error fault => simp
  | ok settings =>
    cases Rulebook.ofFile options.input (files.readText options.input) with
    | error fault => simp
    | ok rulebook =>
      simp only [Files.writeText]
      cases files.target options.output with
      | error fault => simp [Except.map]
      | ok place =>
        simp only [Except.map, Except.ok.injEq, Prod.mk.injEq]
        grind

theorem exitCode_of_attempt {options : Options} {files : Files} {environment : Option String}
    {outcome : Outcome} (failed : options.attempt files environment = .error outcome) :
    outcome.exitCode ≠ 0 := by
  unfold attempt at failed
  split at failed
  · cases failed
    exact Nat.one_ne_zero
  · split at failed
    · cases failed
      exact Nat.one_ne_zero
    · dsimp only at failed
      split at failed
      · cases failed
        exact Nat.one_ne_zero
      · cases failed

theorem exitCode_report (options : Options) (settings : Settings) (rulebook : Rulebook) :
    (options.report (.ofRulebook settings rulebook)).exitCode ≠ 0 ↔
      options.strict = true ∧ rulebook.Fails := by
  have failures : (ModuleCode.ofRulebook settings rulebook).failures =
      rulebook.entities.flatMap Entity.failures := by
    simp only [ModuleCode.ofRulebook, Rulebook.classes, List.flatMap_map, ClassCode.ofEntity,
      Entity.filterMap_failure?]
  unfold report Rulebook.Fails
  simp only [failures]
  split <;> simp_all

theorem output_report (options : Options) (code : ModuleCode) (strict : Bool) :
    ({ options with strict := strict }.report code).output = (options.report code).output := by
  simp only [report, apply_ite Outcome.output, ite_self]

end Options

def Command.withStrict (strict : Bool) : Command → Command
  | generate options => generate { options with strict := strict }
  | command => command

theorem Argument.ofText?_strict : ofText? "--strict" = some (.switch .strict) := by decide

theorem Argument.isValue_strict : isValue "--strict" = false := by decide

namespace Given

variable {given next : Given} {command : Command} {front back arguments : List String}

def withStrict (given : Given) (strict : Bool) : Given := { given with strict := strict }

theorem set_withStrict {which : Setting} {value : String}
    (done : given.set which value = some next) (strict : Bool) :
    next.strict = given.strict ∧
      (given.withStrict strict).set which value = some (next.withStrict strict) := by
  cases which <;> simp only [set, withStrict] at done ⊢ <;> split at done <;> cases done <;>
    simp_all

theorem complete_withStrict (done : given.complete = some command) (strict : Bool) :
    (given.withStrict strict).complete = some (command.withStrict strict) := by
  simp only [complete, Option.bind_eq_bind, Option.bind_eq_some_iff] at done
  obtain ⟨input, hasInput, output, hasOutput, same⟩ := done
  cases same
  simp [complete, withStrict, hasInput, hasOutput, Command.withStrict]

/-- Arguments that do not have the switch are read in the same way, whether it came before them or
not. They do not have it if they are accepted after it, or if it is not found after them. -/
theorem read_withStrict (accepted : given.read arguments = some command)
    (without : given.strict = true ∨
      ∃ options, command = .generate options ∧ options.strict = false) (strict : Bool) :
    (given.withStrict strict).read arguments = some (command.withStrict strict) := by
  fun_induction read given arguments generalizing strict
  case case1 => exact complete_withStrict accepted strict
  case case3 is => simpa [read, is] using complete_withStrict accepted strict
  case case5 is | case6 is =>
    cases accepted
    simp [read, is, Command.withStrict]
  case case8 is absent ih => simpa [read, is, withStrict, absent] using ih accepted without strict
  case case10 is absent ih =>
    obtain ⟨options, rfl, lenient⟩ := without.resolve_left absent
    have kept : Command.generate options = .generate { options with strict := true } :=
      Option.some.inj (accepted.symm.trans (ih accepted (.inl rfl) true))
    injection kept with kept
    rw [kept] at lenient
    cases lenient
  case case12 is _ done ih =>
    obtain ⟨same, done⟩ := set_withStrict done strict
    simpa [read, is, done] using ih accepted (same ▸ without) strict
  case case15 is _ _ value _ done ih =>
    obtain ⟨same, done⟩ := set_withStrict done strict
    simpa [read, is, value, done] using ih accepted (same ▸ without) strict
  all_goals cases accepted

theorem read_strict (accepted : given.read ("--strict" :: arguments) = some command) :
    command.withStrict true = command ∧ given.read arguments = some (command.withStrict false) := by
  simp only [read, Argument.ofText?_strict] at accepted
  split at accepted
  · cases accepted
  · rename_i absent
    have kept : some command = some (command.withStrict true) :=
      accepted.symm.trans (read_withStrict accepted (.inl rfl) true)
    have same : { given with strict := true }.withStrict false = given := by
      rw [withStrict, ← Bool.eq_false_of_not_eq_true absent]
    exact ⟨(Option.some.inj kept).symm, same ▸ read_withStrict accepted (.inl rfl) false⟩

theorem read_cons_strict {options : Options} (absent : given.strict = false)
    (accepted : given.read arguments = some (.generate options))
    (lenient : options.strict = false) :
    given.read ("--strict" :: arguments) = some (.generate { options with strict := true }) := by
  simp only [read, Argument.ofText?_strict, absent]
  exact read_withStrict accepted (.inr ⟨options, rfl, lenient⟩) true

/-- Arguments with the switch somewhere in them are accepted without it. -/
theorem read_insert (accepted : given.read (front ++ "--strict" :: back) = some command) :
    command.withStrict true = command ∧
      given.read (front ++ back) = some (command.withStrict false) := by
  fun_induction read given front
  case case1 => exact read_strict accepted
  case case2 is | case3 is | case4 is _ => simp [read, is] at accepted
  case case5 is | case6 is =>
    simp only [List.cons_append, read, is] at accepted
    cases accepted
    simp [read, is, Command.withStrict]
  case case7 is present | case9 is present => simp [read, is, present] at accepted
  case case8 is absent ih | case10 is absent ih =>
    simpa [read, is, absent] using ih (by simpa [read, is, absent] using accepted)
  case case11 is done => simp [read, is, done] at accepted
  case case12 is _ done ih =>
    simpa [read, is, done] using ih (by simpa [read, is, done] using accepted)
  case case13 is => simp [read, is, Argument.isValue_strict] at accepted
  case case14 is _ _ value done => simp [read, is, value, done] at accepted
  case case15 is _ _ value _ done ih =>
    simpa [read, is, value, done] using ih (by simpa [read, is, value, done] using accepted)
  case case16 is _ _ value => simp [read, is, value] at accepted

end Given

namespace CommandLine

/-- What a run may do and what it has to do. -/
structure Effect (files : Files) (environment : Option String) (arguments : List String)
    (ended : Outcome × Files) : Prop where
  /-- A file that changes is the one that the run is to write. -/
  frame : ∀ place, ended.2.contents? place ≠ files.contents? place →
    ∃ options, Command.ofArguments arguments = some (.generate options) ∧
      files.target options.output = .ok place
  /-- A run that is asked for the help shows it and does nothing else. -/
  help : Command.ofArguments arguments = some .help → ended = (.shown helpText, files)
  /-- One that is asked for the version shows that. -/
  version : Command.ofArguments arguments = some .version → ended = (.shown versionText, files)
  /-- Wrong arguments change nothing. -/
  refused : Command.ofArguments arguments = none → ended.2 = files ∧ ended.1.exitCode ≠ 0
  /-- Nor does a run without settings, without a rulebook or without a place for the output. -/
  failed : ∀ options, Command.ofArguments arguments = some (.generate options) →
    (¬∃ settings, options.Configures files environment settings) ∨
      (¬∃ rulebook, options.Loads files rulebook) ∨
      (¬∃ place, files.target options.output = .ok place) →
    ended.2 = files ∧ ended.1.exitCode ≠ 0
  /-- Any other run writes the module, and a strict one fails if a member does. -/
  written : ∀ options settings rulebook place,
    Command.ofArguments arguments = some (.generate options) →
    options.Configures files environment settings → options.Loads files rulebook →
    files.target options.output = .ok place →
    let source := (ModuleCode.ofRulebook settings rulebook).source
    ended.2.contents? place = some source.toUTF8 ∧
      ended.2.readText options.output = .ok source ∧
      (ended.1.exitCode ≠ 0 ↔ options.strict = true ∧ rulebook.Fails)
  /-- The strict switch can be added to arguments that do not have it. -/
  added : ∀ options, Command.ofArguments arguments = some (.generate options) →
    options.strict = false →
    Command.ofArguments ("--strict" :: arguments) = some (.generate { options with strict := true })
  /-- Wherever it is accepted, files and output stay the same. The run then fails exactly if it
  did without the switch, or if some member does. -/
  strict : ∀ front back, arguments = front ++ back →
    Command.ofArguments (front ++ "--strict" :: back) ≠ none →
    let strictly := runOn files environment (front ++ "--strict" :: back)
    strictly.2 = ended.2 ∧ strictly.1.output = ended.1.output ∧
      (strictly.1.exitCode ≠ 0 ↔ ended.1.exitCode ≠ 0 ∨
        ∃ options rulebook, Command.ofArguments arguments = some (.generate options) ∧
          options.Loads files rulebook ∧ rulebook.Fails)

variable {files : Files} {environment : Option String} {arguments : List String} {options : Options}

theorem runOn_generate (accepted : Command.ofArguments arguments = some (.generate options)) :
    runOn files environment arguments =
      options.finish files (options.attempt files environment) := by
  rw [← options.run_disk, runOn, run, accepted]

theorem exists_target_of_changed {place : Place}
    (changed : (runOn files environment arguments).2.contents? place ≠ files.contents? place) :
    ∃ options, Command.ofArguments arguments = some (.generate options) ∧
      files.target options.output = .ok place := by
  -- Only a run that generates gets as far as writing.
  rcases read : Command.ofArguments arguments with _ | (_ | _ | options)
  iterate 3
    rw [runOn, run, read] at changed
    exact absurd rfl changed
  rw [runOn_generate read] at changed
  refine ⟨options, rfl, ?_⟩
  cases attempted : options.attempt files environment with
  | error outcome =>
    rw [attempted] at changed
    exact absurd rfl changed
  | ok done =>
    obtain ⟨settings, rulebook, target, -, -, leads, -, after⟩ := Options.attempt_eq_ok.1 attempted
    rw [attempted, Options.finish, after, Files.contents?_put] at changed
    have here : place = target := by
      by_contra apart
      exact changed (if_neg apart)
    rw [here, leads]

theorem runOn_of_missing (accepted : Command.ofArguments arguments = some (.generate options))
    (missing : (¬∃ settings, options.Configures files environment settings) ∨
      (¬∃ rulebook, options.Loads files rulebook) ∨
      (¬∃ place, files.target options.output = .ok place)) :
    (runOn files environment arguments).2 = files ∧
      (runOn files environment arguments).1.exitCode ≠ 0 := by
  rw [runOn_generate accepted]
  cases attempted : options.attempt files environment with
  | error outcome => exact ⟨rfl, Options.exitCode_of_attempt attempted⟩
  | ok done =>
    obtain ⟨settings, rulebook, place, configured, loaded, leads, -⟩ :=
      Options.attempt_eq_ok.1 attempted
    rcases missing with missing | missing | missing
    · exact absurd ⟨settings, configured⟩ missing
    · exact absurd ⟨rulebook, loaded⟩ missing
    · exact absurd ⟨place, leads⟩ missing

theorem runOn_of_loaded {settings : Settings} {rulebook : Rulebook} {place : Place}
    (accepted : Command.ofArguments arguments = some (.generate options))
    (configured : options.Configures files environment settings)
    (loaded : options.Loads files rulebook) (leads : files.target options.output = .ok place) :
    runOn files environment arguments =
      (options.report (.ofRulebook settings rulebook),
        files.put place (ModuleCode.ofRulebook settings rulebook).source.toUTF8) := by
  rw [runOn_generate accepted,
    Options.attempt_eq_ok.2 ⟨settings, rulebook, place, configured, loaded, leads, rfl, rfl⟩]
  rfl

/-- Adding the switch to arguments changes nothing before the report. -/
theorem runOn_strict {front back : List String} {command : Command}
    (accepted : Command.ofArguments (front ++ "--strict" :: back) = some command) :
    let ended := runOn files environment (front ++ back)
    let strictly := runOn files environment (front ++ "--strict" :: back)
    strictly.2 = ended.2 ∧ strictly.1.output = ended.1.output ∧
      (strictly.1.exitCode ≠ 0 ↔ ended.1.exitCode ≠ 0 ∨
        ∃ options rulebook, Command.ofArguments (front ++ back) = some (.generate options) ∧
          options.Loads files rulebook ∧ rulebook.Fails) := by
  obtain ⟨kept, lenient⟩ := Given.read_insert accepted
  change Command.ofArguments (front ++ back) = _ at lenient
  cases command with
  | help | version =>
    simp [runOn, run, accepted, lenient, Command.withStrict]
  | generate options =>
    have switched : options.strict = true := by
      injection kept with kept
      rw [← kept]
    have same : { options with strict := false }.attempt files environment =
      options.attempt files environment := rfl
    rw [runOn_generate accepted, runOn_generate lenient, same]
    cases attempted : options.attempt files environment with
    | error outcome =>
      have failed := Options.exitCode_of_attempt attempted
      exact ⟨rfl, rfl, iff_of_true failed (.inl failed)⟩
    | ok done =>
      obtain ⟨settings, rulebook, _, -, loaded, -, code, -⟩ := Options.attempt_eq_ok.1 attempted
      refine ⟨rfl, (options.output_report _ false).symm, ?_⟩
      simp only [Options.finish, code, Options.exitCode_report]
      constructor
      · rintro ⟨-, fails⟩
        exact .inr ⟨_, rulebook, lenient, loaded, fails⟩
      · rintro (⟨⟨⟩, -⟩ | ⟨other, found, again, loads, fails⟩)
        cases lenient.symm.trans again
        exact ⟨switched, loaded.unique loads ▸ fails⟩

/-- A run changes no file but its output, and that one only after everything is loaded. -/
theorem runOn_effect (files : Files) (environment : Option String) (arguments : List String) :
    Effect files environment arguments (runOn files environment arguments) where
  frame _ changed := exists_target_of_changed changed
  help := by
    intro asked
    rw [runOn, run, asked]
    rfl
  version := by
    intro asked
    rw [runOn, run, asked]
    rfl
  refused := by
    intro refused
    rw [runOn, run, refused]
    exact ⟨rfl, Nat.succ_ne_zero 1⟩
  failed _ accepted missing := runOn_of_missing accepted missing
  written := by
    intro options settings rulebook place accepted configured loaded leads
    rw [runOn_of_loaded accepted configured loaded leads]
    exact ⟨(Files.contents?_put ..).trans (if_pos rfl), Files.readText_put leads,
      options.exitCode_report settings rulebook⟩
  added _ accepted lenient := Given.read_cons_strict rfl accepted lenient
  strict := by
    rintro front back rfl accepted
    obtain ⟨command, accepted⟩ := Option.ne_none_iff_exists'.1 accepted
    exact runOn_strict accepted

/-- Both runs write the same module. The rule of its only field cannot be compiled, and only the
strict run fails for it. -/
theorem runOn_effect_strict :
    let files : Files := ⟨[(["in.json"], "[[\"A\",[[\"x\",\"calculated\",\"+\"]]]]".toUTF8)]⟩
    let rulebook : Rulebook := ⟨[⟨"A", [⟨"x", .calculated "+" ""⟩], [], []⟩]⟩
    let source :=
      (ModuleCode.ofRulebook { Settings.default with blockModule := "blocks" } rulebook).source
    let ended := runOn files (some " blocks ") ["-i", "in.json", "-o", "out.py"]
    let strictly := runOn files (some " blocks ") ["-i", "in.json", "--strict", "-o", "out.py"]
    ended.2.readText "out.py" = .ok source ∧ ended.1.exitCode = 0 ∧ strictly.2 = ended.2 ∧
      strictly.1.exitCode ≠ 0 ∧ runOn files none ["-V", "-o"] = (.shown versionText, files) := by
  intro files rulebook source ended strictly
  have accepted : Command.ofArguments ["-i", "in.json", "-o", "out.py"] =
      some (.generate ⟨"in.json", "out.py", none, none, false, false⟩) := by decide_cbv
  have configured : Options.Configures ⟨"in.json", "out.py", none, none, false, false⟩ files
      (some " blocks ") { Settings.default with blockModule := "blocks" } :=
    ⟨.empty, rfl, by cbv⟩
  have decoded : Rulebook.ofText "[[\"A\",[[\"x\",\"calculated\",\"+\"]]]]" = .ok rulebook := by
    decide +kernel
  have placed : (Files.mk []).target "in.json" = .ok ["in.json"] := rfl
  have loaded : Options.Loads ⟨"in.json", "out.py", none, none, false, false⟩ files rulebook :=
    ⟨_, Files.readText_put placed, decoded⟩
  have leads : files.target "out.py" = .ok ["out.py"] := rfl
  have fails : rulebook.Fails := ⟨_, List.mem_singleton_self _, by decide_cbv⟩
  have effect := runOn_effect files (some " blocks ") ["-i", "in.json", "-o", "out.py"]
  obtain ⟨-, read, exit⟩ := effect.written _ _ _ _ accepted configured loaded leads
  obtain ⟨same, -, strict⟩ := effect.strict ["-i", "in.json"] ["-o", "out.py"] rfl (by decide_cbv)
  have lenient : ended.1.exitCode = 0 := by
    by_contra failed
    cases (exit.1 failed).1
  refine ⟨read, lenient, same, strict.2 (.inr ⟨_, rulebook, accepted, loaded, fails⟩), ?_⟩
  exact (runOn_effect files none ["-V", "-o"]).version (by decide_cbv)

end CommandLine

end Formulary
