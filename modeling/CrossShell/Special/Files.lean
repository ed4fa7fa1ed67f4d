import CrossShell.Invocation
import CrossShell.Special.Pipeline

/-!
# Files and directories

`rsync`, `du`, `chmod`, `chown`, `ln`, `gzip`, `gunzip`, `mktemp` and `rmdir`.

* `ownerRight?`: the right that the owner digit of an octal mode grants.
-/
namespace CrossShell

/-- `rsync`: a recursive copy of one source. A source that ends in `/` means its contents. -/
def convertRsync? (inv : Invocation) : Option Text :=
  if inv.hasShort 'a' || inv.hasShort 'r' then
    match inv.positionals [] with
    | [source, destination] =>
      let source := if source.getLast? = some '/' then source ++ "*" else source
      some (inv.finish ("Copy-Item -Path " ++ source ++ " -Destination " ++ destination ++
        " -Recurse -Force"))
    | _ => none
  else none

/-- The sum of the sizes of files. -/
def sizeSum : Text := "Measure-Object -Property Length -Sum"

/-- `du`: sizes of files, one by one or as a sum, plain or in units. -/
def convertDu (inv : Invocation) : Text :=
  let human := inv.hasShort 'h'
  let files := "Get-ChildItem -Path " ++ pathList (inv.positionals []) ++ " -Recurse -File"
  inv.finish <|
    if inv.hasShort 'a' || (human && !inv.hasShort 's') then
      if human then
        files ++ " | Select-Object FullName, @\x7bName='Size'; Expression=" ++
          scriptBlock "'\x7b0:N1\x7d KB' -f ($_.Length / 1KB)" ++ "\x7d"
      else files ++ " | Select-Object FullName, Length"
    else if human then
      "'\x7b0:N1\x7d MB' -f ((" ++ files ++ " | " ++ sizeSum ++ ").Sum / 1MB)"
    else files ++ " | " ++ sizeSum ++ " | Select-Object -ExpandProperty Sum"

/-- Whether a character is an octal digit. -/
def isOctalDigit (c : Char) : Bool := '0'.toNat ≤ c.toNat && c.toNat ≤ '7'.toNat

/-- The right that a digit of a mode grants. -/
def rightOfDigit? : Char → Option Text
  | '7' => some "F"
  | '6' => some "M"
  | '5' | '4' => some "R"
  | '3' | '2' => some "W"
  | '1' => some "RX"
  | _ => none

/-- The right of the owner in an octal mode of three or four digits. -/
def ownerRight? (mode : Text) : Option Text :=
  if mode.all isOctalDigit then
    match mode with
    | [owner, _, _] | [_, owner, _, _] => rightOfDigit? owner
    | _ => none
  else none

/-- One statement for each target. -/
def forTargets (targets : List Text) (statement : Text → Text) : Text :=
  Text.join "; " (targets.map statement)

/-- The switch that includes what is below a directory. -/
def treeSwitch (inv : Invocation) : Text := if inv.hasShort 'R' then " /T" else ""

/-- `chmod`: grants the right of the owner digit. -/
def convertChmod? (inv : Invocation) : Option Text :=
  match inv.positionals [] with
  | mode :: target :: targets => do
    let right ← ownerRight? mode
    return inv.finish <| forTargets (target :: targets) fun target =>
      "icacls " ++ target ++ " /grant \"$\x7benv:USERNAME\x7d:(" ++ right ++ ")\"" ++
        treeSwitch inv
  | _ => none

/-- `chown`: sets the owner; a group behind `:` is not carried over. -/
def convertChown? (inv : Invocation) : Option Text :=
  match inv.positionals [] with
  | owner :: target :: targets =>
    let user := owner.takeWhile (· != ':')
    if user.isEmpty then none
    else some <| inv.finish <| forTargets (target :: targets) fun target =>
      "icacls " ++ target ++ " /setowner " ++ user ++ treeSwitch inv
  | _ => none

/-- `ln`: one link. -/
def convertLn? (inv : Invocation) : Option Text :=
  match inv.positionals [] with
  | [target, link] =>
    let kind : Text := if inv.hasShort 's' then "SymbolicLink" else "HardLink"
    let force : Text := if inv.hasShort 'f' then " -Force" else ""
    some (inv.finish ("New-Item -ItemType " ++ kind ++ " -Path " ++ link ++ " -Target " ++ target ++
      force))
  | _ => none

/-- A loop over files that ends each round by removing the file, unless files are kept. -/
def fileLoop (files : List Text) (keep : Bool) (statements : List Text) : Text :=
  let remove := if keep then [] else ["Remove-Item $f.FullName".toList]
  "foreach ($f in (Get-Item " ++ commaList files ++ ")) " ++
    scriptBlock (Text.join "; " (statements ++ remove))

/-- Compresses files. -/
def compressLoop (files : List Text) (keep : Bool) : Text :=
  fileLoop files keep
    ["$in = [IO.File]::OpenRead($f.FullName)",
     "$out = [IO.File]::Create($f.FullName + '.gz')",
     "$gz = [IO.Compression.GZipStream]::new($out, [IO.Compression.CompressionMode]::Compress)",
     "$in.CopyTo($gz)", "$gz.Dispose()", "$out.Dispose()", "$in.Dispose()"]

/-- Decompresses files. -/
def decompressLoop (files : List Text) (keep : Bool) : Text :=
  fileLoop files keep
    ["$in = [IO.File]::OpenRead($f.FullName)",
     "$gz = [IO.Compression.GZipStream]::new($in, [IO.Compression.CompressionMode]::Decompress)",
     "$out = [IO.File]::Create(($f.FullName -replace '\\.gz$', ''))",
     "$gz.CopyTo($out)", "$out.Dispose()", "$gz.Dispose()", "$in.Dispose()"]

/-- `gzip`: compresses, or with `-d` decompresses. -/
def convertGzip? (inv : Invocation) : Option Text :=
  let files := inv.positionals []
  let keep := inv.hasShort 'k'
  if files.isEmpty then none
  else some <| inv.finish <|
    if inv.hasShort 'd' then decompressLoop files keep else compressLoop files keep

/-- `gunzip`: decompresses. -/
def convertGunzip? (inv : Invocation) : Option Text :=
  let files := inv.positionals []
  if files.isEmpty then none
  else some (inv.finish (decompressLoop files (inv.hasShort 'k')))

/-- `mktemp`: a new file or directory. -/
def convertMktemp (inv : Invocation) : Text :=
  inv.finish <|
    if inv.hasShort 'd' then
      "New-Item -ItemType Directory -Path (Join-Path ([IO.Path]::GetTempPath()) " ++
        "([IO.Path]::GetRandomFileName())) | Select-Object -ExpandProperty FullName"
    else "New-TemporaryFile | Select-Object -ExpandProperty FullName"

/-- `rmdir`: removes directories. -/
def convertRmdir? (inv : Invocation) : Option Text :=
  let directories := inv.positionals []
  if directories.isEmpty then none
  else some (inv.finish ("Remove-Item -Path " ++ commaList directories))

end CrossShell
