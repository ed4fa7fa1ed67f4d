import CrossShell.Invocation
import CrossShell.Special.Pipeline
import CrossShell.Target
import CrossShell.Text.Number

/-!
# Services, network and processes

`systemctl`, `ping`, `top`, `netstat`, `dig`, `uptime`, `free` and `whoami`.
-/
namespace CrossShell

/-- What an action on services becomes, given the names of the services. -/
def serviceCommand? (action names : Text) : Option Text :=
  if action = "start" then some ("Start-Service -Name " ++ names)
  else if action = "stop" then some ("Stop-Service -Name " ++ names)
  else if action = "restart" then some ("Restart-Service -Name " ++ names)
  else if action = "reload" then some ("Restart-Service -Name " ++ names ++ " -Force")
  else if action = "status" then some ("Get-Service -Name " ++ names)
  else if action = "enable" then
    some ("Get-Service -Name " ++ names ++ " | Set-Service -StartupType Automatic")
  else if action = "disable" then
    some ("Get-Service -Name " ++ names ++ " | Set-Service -StartupType Disabled")
  else none

/-- `systemctl`: an action on services. -/
def convertSystemctl? (inv : Invocation) : Option Text :=
  match inv.positionals [] with
  | action :: unit :: units =>
    let names := (unit :: units).map fun unit => (Text.dropBack? unit ".service").getD unit
    (serviceCommand? action (commaList names)).map inv.finish
  | _ => none

/-- The switch for the number of times that `ping` tries, if one is given. -/
def countSwitch? (count : Option Text) : Option Text :=
  match count with
  | none => some []
  | some count => do
    let n ← Text.toNat32? count
    return " -Count " ++ Text.ofNat n

/-- `ping`: tests one host, a given number of times. -/
def convertPing? (inv : Invocation) : Option Text :=
  match inv.positionals ["-c"] with
  | [host] => do
    let count ← countSwitch? (inv.optionValue? "-c")
    return inv.finish ("Test-Connection -ComputerName " ++ host ++ count)
  | _ => none

/-- `top`: the busiest processes. -/
def convertTop? (inv : Invocation) : Option Text :=
  if (inv.positionals ["-n"]).isEmpty then
    some (inv.finish
      "Get-Process | Sort-Object -Property CPU -Descending | Select-Object -First 20")
  else none

/-- `netstat`: connections. -/
def convertNetstat? (inv : Invocation) : Option Text :=
  if (inv.positionals []).isEmpty then
    let tcp : Text :=
      if inv.hasShort 'l' then "Get-NetTCPConnection -State Listen" else "Get-NetTCPConnection"
    some <| inv.finish <|
      match inv.hasShort 't', inv.hasShort 'u' with
      | false, true => "Get-NetUDPEndpoint"
      | true, true => "@(" ++ tcp ++ ") + @(Get-NetUDPEndpoint)"
      | _, _ => tcp
  else none

/-! ## `dig` -/

/-- What a `dig` asks for. -/
structure DnsQuery where
  /-- The name to look up. -/
  name : Option Text := none
  /-- The type of record. -/
  record : Option Text := none
  /-- The server to ask. -/
  server : Option Text := none
  /-- Whether only addresses are wanted. -/
  short : Bool := false
  deriving DecidableEq, Repr

/-- The types of records. -/
def recordTypes : List Text :=
  ["A", "AAAA", "MX", "NS", "TXT", "CNAME", "SOA", "PTR", "SRV", "ANY"]

/-- Takes one word into a query. The first plain word is the name, whatever it says. -/
def DnsQuery.addWord? (q : DnsQuery) (word : Text) : Option DnsQuery :=
  match Text.dropFront? word "@" with
  | some address => some { q with server := some address }
  | none =>
    if word = "+short" then some { q with short := true }
    else if word.head? = some '+' then some q
    else if q.name.isNone then some { q with name := some word }
    else if recordTypes.contains (Text.toUpper word) then
      some { q with record := some (Text.toUpper word) }
    else none

/-- A switch with its value, if there is one. -/
def switchValue (switch : Text) : Option Text → Text
  | none => []
  | some value => switch ++ value

/-- The query as a command. -/
def DnsQuery.text? (q : DnsQuery) : Option Text :=
  q.name.map fun name =>
    "Resolve-DnsName -Name " ++ name ++ switchValue " -Type " q.record ++
      switchValue " -Server " q.server ++
      (if q.short then
        " | Where-Object IPAddress | Select-Object -ExpandProperty IPAddress".toList
      else [])

/-- `dig`: looks up a name. -/
def convertDig? (inv : Invocation) : Option Text := do
  let query ← (inv.positionals []).foldlM DnsQuery.addWord? {}
  return inv.finish (← query.text?)

/-! ## The machine -/

/-- Facts about the operating system. -/
def systemInfo : Text := "Get-CimInstance -ClassName Win32_OperatingSystem"

/-- `uptime`: the time since the start, or with `-s` the start. -/
def convertUptime? (target : Target) (inv : Invocation) : Option Text :=
  if (inv.positionals []).isEmpty then
    some <| inv.finish <|
      match inv.hasShort 's', target.hasGetUptime with
      | true, true => "Get-Uptime -Since"
      | true, false => "(" ++ systemInfo ++ ").LastBootUpTime"
      | false, true => "Get-Uptime"
      | false, false => "(Get-Date) - (" ++ systemInfo ++ ").LastBootUpTime"
  else none

/-- A column of the memory table. -/
def memoryColumn (divisor name kilobytes : Text) : Text :=
  "@\x7bName='" ++ name ++ "'; Expression=" ++
    scriptBlock ("[math]::Round((" ++ kilobytes ++ ") * 1KB / " ++ divisor ++ ", 2)") ++ "\x7d"

/-- The unit of the memory table: the last letter among the flags decides. -/
def memoryUnit (inv : Invocation) : Text :=
  match inv.shortChars.getLast? with
  | some 'b' => "1"
  | some 'm' => "1MB"
  | some 'g' | some 'h' => "1GB"
  | _ => "1KB"

/-- `free`: the memory table. -/
def convertFree? (inv : Invocation) : Option Text :=
  if (inv.positionals []).isEmpty then
    let column := memoryColumn (memoryUnit inv)
    some (inv.finish (systemInfo ++ " | Select-Object " ++ commaList
      [column "Total" "$_.TotalVisibleMemorySize",
       column "Used" "$_.TotalVisibleMemorySize - $_.FreePhysicalMemory",
       column "Free" "$_.FreePhysicalMemory"]))
  else none

/-- `whoami`: the name of the user. -/
def convertWhoami? (inv : Invocation) : Option Text :=
  if inv.words.isEmpty then some (inv.finish "[Environment]::UserName") else none

end CrossShell
