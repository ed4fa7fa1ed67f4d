import CrossShell.Rule.Mapping

/-!
# The built-in mappings

One row for each command that is converted flag by flag: its name, what takes its place, and what
each flag becomes. A flag that becomes the empty text is dropped.
-/
namespace CrossShell

/-- A row of the built-in table. -/
def row (name verb description : Text) (flags : List (Text × Text)) (needsArguments : Bool) :
    Mapping :=
  ⟨name, verb, description, .ofList flags, needsArguments⟩

/-- The built-in mappings, in order. -/
def builtinMappings : List Mapping :=
  [row "ls" "Get-ChildItem" "List directory contents"
      [("-a", "-Force"), ("-A", "-Force"), ("-l", ""), ("-h", ""), ("-la", "-Force"),
       ("-al", "-Force"), ("-lh", ""), ("-lah", "-Force"), ("-R", "-Recurse"),
       ("-1", "-Name")] false,
   row "cat" "Get-Content" "Display file contents" [] true,
   row "rm" "Remove-Item" "Remove files"
      [("-r", "-Recurse"), ("-R", "-Recurse"), ("-f", "-Force"),
       ("-rf", "-Recurse -Force"), ("-fr", "-Recurse -Force"), ("-Rf", "-Recurse -Force"),
       ("-i", "-Confirm"), ("-v", "-Verbose"), ("-d", "")] true,
   row "cp" "Copy-Item" "Copy files"
      [("-r", "-Recurse"), ("-R", "-Recurse"), ("-a", "-Recurse"), ("-f", "-Force"),
       ("-rf", "-Recurse -Force"), ("-v", "-Verbose"), ("-i", "-Confirm")] true,
   row "mv" "Move-Item" "Move/rename files"
      [("-f", "-Force"), ("-v", "-Verbose"), ("-i", "-Confirm")] true,
   row "mkdir" "New-Item -ItemType Directory" "Create directories"
      [("-p", "-Force"), ("-v", "-Verbose")] true,
   row "touch" "New-Item -ItemType File" "Create empty file" [] true,
   row "pwd" "Get-Location" "Print working directory" [("-L", ""), ("-P", "")] false,
   row "cd" "Set-Location" "Change directory" [] false,
   row "clear" "Clear-Host" "Clear screen" [] false,
   row "echo" "Write-Output" "Print arguments" [("-e", ""), ("-E", "")] false,
   row "which" "Get-Command" "Locate command" [("-a", "-All")] true,
   row "ps" "Get-Process" "List processes" [("-e", ""), ("-A", ""), ("-ef", ""), ("-f", "")] false,
   row "kill" "Stop-Process" "Terminate process"
      [("-9", "-Force"), ("-KILL", "-Force"), ("-15", ""), ("-TERM", "")] true,
   row "df" "Get-PSDrive -PSProvider FileSystem" "Display disk space"
      [("-h", ""), ("-H", ""), ("-k", "")] false,
   row "sort" "Sort-Object" "Sort lines"
      [("-r", "-Descending"), ("-u", "-Unique"), ("-n", ""), ("-f", "")] false,
   row "uniq" "Get-Unique" "Drop adjacent duplicate lines" [] false,
   row "tee" "Tee-Object" "Copy input to a file" [("-a", "-Append")] true,
   row "curl" "Invoke-WebRequest" "Transfer a URL"
      [("-s", ""), ("-S", ""), ("-L", ""), ("-sSL", ""), ("-fsSL", ""), ("-o", "-OutFile"),
       ("-I", "-Method Head"), ("-X", "-Method")] true,
   row "wget" "Invoke-WebRequest" "Download a URL" [("-O", "-OutFile"), ("-q", "")] true,
   row "man" "Get-Help" "Show help for a command" [] true,
   row "env" "Get-ChildItem Env:" "List environment variables" [] false,
   row "printenv" "Get-ChildItem Env:" "List environment variables" [] false,
   row "date" "Get-Date" "Show the current date" [("-u", "-AsUTC")] false,
   row "history" "Get-History" "Show command history" [] false,
   row "basename" "Split-Path -Leaf" "Strip directory from a path" [] true,
   row "dirname" "Split-Path -Parent" "Strip last component from a path" [] true,
   row "realpath" "Resolve-Path" "Print the resolved path" [] true,
   row "stat" "Get-Item" "Show file status" [] true,
   row "unzip" "Expand-Archive" "Extract a zip archive"
      [("-o", "-Force"), ("-d", "-DestinationPath"), ("-q", "")] true,
   row "source" "." "Run a script in the current shell" [] true]

end CrossShell
