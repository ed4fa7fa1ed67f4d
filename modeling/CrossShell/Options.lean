import CrossShell.Text

/-!
# Command line options

Options stand in front of the command to convert. The first word that is no known option starts the
command, and all words behind it belong to it, even if they look like options; `--` ends the options
too.

* `Options.parse`: the options and the command, or why the program stops at once.

A word of a dash and letters holds several options, of which the last may have its value attached.
It counts as such only if every letter is that of an option.
-/
namespace CrossShell

/-- The options without a value. -/
inductive Switch where
  /-- Log more. -/
  | debug
  /-- Check the command and do not convert it. -/
  | lint
  /-- Print results as JSON. -/
  | json
  /-- Run the converted line. -/
  | exec
  deriving DecidableEq, Repr

/-- The options with a value. -/
inductive Setting where
  /-- The settings file. -/
  | config
  /-- The target shell. -/
  | shell
  deriving DecidableEq, Repr

/-- All options. -/
inductive Opt where
  /-- Without a value. -/
  | switch (s : Switch)
  /-- With a value. -/
  | setting (s : Setting)
  /-- Explain the options and stop. -/
  | help
  /-- Print the version and stop. -/
  | version
  deriving DecidableEq, Repr

namespace Opt

/-- The options by their long names. -/
def longNames : List (Text × Opt) :=
  [("config", setting .config), ("debug", switch .debug), ("shell", setting .shell),
   ("lint", switch .lint), ("json", switch .json), ("exec", switch .exec), ("help", help),
   ("version", version)]

/-- The options by their letters. -/
def letters : List (Char × Opt) :=
  [('c', setting .config), ('d', switch .debug), ('s', setting .shell), ('x', switch .exec),
   ('h', help), ('V', version)]

end Opt

/-- What the words in front of the command say. -/
structure Options where
  /-- The switches that are set. -/
  switches : List Switch := []
  /-- The values that are set. -/
  settings : List (Setting × Text) := []
  /-- The words of the command. -/
  command : List Text := []
  deriving DecidableEq, Repr

/-- What is wrong with the words. -/
inductive UsageError where
  /-- A switch stands twice. -/
  | switchRepeated (s : Switch)
  /-- An option stands twice. -/
  | settingRepeated (s : Setting)
  /-- An option has no value. -/
  | valueMissing (s : Setting)
  /-- An option that takes no value has one. -/
  | valueUnexpected
  /-- There is no command. -/
  | commandMissing
  /-- A command cannot be both checked and run. -/
  | lintWithExec
  deriving DecidableEq, Repr

/-- Why the program stops before it looks at the command. -/
inductive Stop where
  /-- The options are to be explained. -/
  | help
  /-- The version is asked for. -/
  | version
  /-- The words are wrong. -/
  | usage (e : UsageError)
  deriving DecidableEq, Repr

/-- What a word in front of the command does. -/
inductive OptionAction where
  /-- Sets a switch. -/
  | set (s : Switch)
  /-- Sets a value. -/
  | assign (s : Setting) (value : Text)
  /-- Sets a value that is the next word. -/
  | await (s : Setting)
  /-- Stops the program. -/
  | stop (why : Stop)
  deriving DecidableEq, Repr

namespace OptionAction

/-- What a long option does, with the value that is attached to it. -/
def ofLong : Opt → Option Text → OptionAction
  | .setting s, none => await s
  | .setting s, some value => assign s value
  | _, some _ => stop (.usage .valueUnexpected)
  | .switch s, none => set s
  | .help, none => stop .help
  | .version, none => stop .version

/-- What the letters of a word do. The letters behind an option with a value are its value. -/
def ofLetters : List (Char × Opt) → List OptionAction
  | [] => []
  | (_, .switch s) :: rest => set s :: ofLetters rest
  | (_, .setting s) :: rest => [if rest.isEmpty then await s else assign s (rest.map (·.1))]
  | (_, .help) :: _ => [stop .help]
  | (_, .version) :: _ => [stop .version]

end OptionAction

/-- The kinds of words in front of the command. -/
inductive OptionWord where
  /-- The word that ends the options. -/
  | endMark
  /-- Known options. -/
  | options (actions : List OptionAction)
  /-- Any other word. -/
  | other
  deriving DecidableEq, Repr

namespace OptionWord

/-- A long option with the value behind its equals sign. -/
def ofLong (name : Text) (value : Option Text) : OptionWord :=
  match Opt.longNames.lookup name with
  | none => other
  | some opt => options [.ofLong opt value]

/-- A word of letters. -/
def ofLetters (letters : Text) : OptionWord :=
  match letters.mapM fun c => (Opt.letters.lookup c).map fun opt => (c, opt) with
  | none | some [] => other
  | some opts => options (OptionAction.ofLetters opts)

/-- The kind of a word. -/
def ofWord : Text → OptionWord
  | ['-', '-'] => endMark
  | '-' :: '-' :: rest =>
    match Text.splitOnce '=' rest with
    | some (name, value) => ofLong name (some value)
    | none => ofLong rest none
  | '-' :: letters => ofLetters letters
  | _ => other

end OptionWord

namespace Options

/-- Whether a switch is set. -/
def has (o : Options) (s : Switch) : Bool := o.switches.contains s

/-- The value of an option. -/
def get? (o : Options) (s : Setting) : Option Text := o.settings.lookup s

/-- The line to convert. -/
def line (o : Options) : Text := Text.join " " o.command

/-- Sets a switch, which must not be set. -/
def setSwitch (o : Options) (s : Switch) : Except Stop Options :=
  if o.has s then .error (.usage (.switchRepeated s))
  else .ok { o with switches := s :: o.switches }

/-- Sets a value, which must not be set. -/
def setValue (o : Options) (s : Setting) (value : Text) : Except Stop Options :=
  if (o.get? s).isSome then .error (.usage (.settingRepeated s))
  else .ok { o with settings := (s, value) :: o.settings }

/-- Takes the words of the command. -/
def finish (o : Options) (command : List Text) : Except Stop Options :=
  if command.isEmpty then .error (.usage .commandMissing)
  else if o.has .lint && o.has .exec then .error (.usage .lintWithExec)
  else .ok { o with command }

/-- The options, and the option whose value is the next word. -/
structure Progress where
  /-- The options so far. -/
  options : Options
  /-- The option that waits for its value. -/
  awaiting : Option Setting := none
  deriving DecidableEq, Repr

namespace Progress

/-- Does what an option says. No option may wait for its value. -/
def act (p : Progress) (action : OptionAction) : Except Stop Progress :=
  match p.awaiting with
  | some s => .error (.usage (.valueMissing s))
  | none =>
    match action with
    | .set s => (p.options.setSwitch s).map fun options => { options }
    | .assign s value => (p.options.setValue s value).map fun options => { options }
    | .await s => .ok { p with awaiting := some s }
    | .stop why => .error why

/-- Reads the words from here on. -/
def parse (p : Progress) : List Text → Except Stop Options
  | [] =>
    match p.awaiting with
    | some s => .error (.usage (.valueMissing s))
    | none => p.options.finish []
  | word :: words =>
    match OptionWord.ofWord word, p.awaiting with
    | .options actions, _ => do (← actions.foldlM act p).parse words
    | .endMark, some s => .error (.usage (.valueMissing s))
    | .endMark, none => p.options.finish words
    | .other, some s => do parse { options := ← p.options.setValue s word } words
    | .other, none => p.options.finish (word :: words)

end Progress

/-- Reads the words behind the name of the program. -/
def parse (words : List Text) : Except Stop Options := Progress.parse { options := {} } words

end Options

end CrossShell
