import CrossShell.Settings

/-!
# Settings on a disk

A disk is the list of its files. A directory exists as long as a file is below it.

* `Disk.loadSettings`, `Disk.loadDefault`: reading settings.
* `Disk.saveSettings`: writing settings; missing directories are created.
-/
namespace CrossShell

/-- The names on the way to a file. -/
abbrev Path := List Text

namespace Path

/-- The path that a text writes. -/
def ofText (t : Text) : Path :=
  (Text.splitOn '/' t).filter fun name => !name.isEmpty && name != ".".toList

end Path

/-- The files of a disk, the latest text of a file first. -/
structure Disk where
  /-- The files. -/
  files : List (Path × Text) := []
  deriving DecidableEq, Repr

/-- Why settings cannot be read or written. -/
inductive SettingsError where
  /-- The file cannot be read. -/
  | unreadable (path : Text)
  /-- The file does not hold settings. -/
  | malformed (path : Text)
  /-- The directory of the file cannot be created. -/
  | noDirectory
  /-- The file cannot be written. -/
  | notWritten
  deriving DecidableEq, Repr

/-- The error in words. -/
def SettingsError.message : SettingsError → Text
  | unreadable path => "Failed to read config file " ++ path
  | malformed path => "Failed to parse config file " ++ path
  | noDirectory => "Failed to create config directory"
  | notWritten => "Failed to write config file"

/-- Where settings are looked for below the home directory. -/
def defaultSettingsPath : Text := ".cmdx/config.yaml"

/-- The settings in the text of a file, if the file could be read. -/
def Settings.ofFile (path : Text) (text : Option Text) : Except SettingsError Settings :=
  match text with
  | none => .error (.unreadable path)
  | some text => match parse? text with
    | none => .error (.malformed path)
    | some settings => .ok settings

namespace Disk

/-- The text of a file. -/
def read? (disk : Disk) (path : Path) : Option Text := disk.files.lookup path

/-- Whether there is a file. -/
def isFile (disk : Disk) (path : Path) : Bool := (disk.read? path).isSome

/-- Whether there is a directory. -/
def isDirectory (disk : Disk) (path : Path) : Bool :=
  path.isEmpty || disk.files.any fun (file, _) => path.isPrefixOf file && path != file

/-- Whether there is a file or a directory. -/
def contains (disk : Disk) (path : Path) : Bool := disk.isFile path || disk.isDirectory path

/-- Writes a file. -/
def write (disk : Disk) (path : Path) (text : Text) : Disk := ⟨(path, text) :: disk.files⟩

/-- Reads settings from a file. -/
def loadSettings (disk : Disk) (path : Text) : Except SettingsError Settings :=
  Settings.ofFile path (disk.read? (.ofText path))

/-- Reads settings from the usual place. Without a file there, nothing is set. -/
def loadDefault (disk : Disk) : Except SettingsError Settings :=
  if disk.contains (.ofText defaultSettingsPath) then disk.loadSettings defaultSettingsPath
  else .ok {}

/-- Whether a file lies on the way to a path. -/
def isBlocked (disk : Disk) (path : Path) : Bool :=
  disk.files.any fun (file, _) => file.isPrefixOf path && file != path

/-- Writes settings to a file. -/
def saveSettings (disk : Disk) (path : Text) (settings : Settings) : Except SettingsError Disk :=
  let path := Path.ofText path
  if disk.isBlocked path then .error .noDirectory
  else if disk.isDirectory path then .error .notWritten
  else .ok (disk.write path settings.render)

end Disk

end CrossShell
