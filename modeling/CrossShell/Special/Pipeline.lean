import CrossShell.Text

/-!
# Pieces of PowerShell

The few shapes that converted commands share.
-/
namespace CrossShell

/-- A script block. -/
def scriptBlock (body : Text) : Text := "\x7b " ++ body ++ " \x7d"

/-- A block that runs for each item of the pipeline. -/
def forEachItem (body : Text) : Text := "ForEach-Object " ++ scriptBlock body

/-- Items of a list argument. -/
def commaList (items : List Text) : Text := Text.join ", " items

/-- Paths of a list argument; without any, the current directory. -/
def pathList (paths : List Text) : Text := if paths.isEmpty then "." else commaList paths

end CrossShell
