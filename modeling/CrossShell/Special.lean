import CrossShell.Invocation

/-!
# Commands with a rule of their own

Some commands cannot be converted flag by flag. Each of them has a rule of its own, which goes
before any row of the mapping table. This module holds what is known about these commands without
converting anything: name, description, accepted flags, and which flags are theirs.

* `Special`: the commands; `Special.all` lists them in their fixed order.
* `Special.acceptsFlag`: a flag is accepted if a pattern matches it, or if it is a cluster of short
  flags that are each accepted.
* `Special.ownFlags`: the flags that belong to the command itself and not to one it wraps.
-/
namespace CrossShell

/-- What a command accepts as a flag. -/
inductive FlagPattern where
  /-- This flag. -/
  | exact (flag : Text)
  /-- Any flag that starts so. -/
  | stem (text : Text)
  /-- A dash and digits. -/
  | number
  deriving DecidableEq, Repr

namespace FlagPattern

/-- How the pattern is written in a list of flags. -/
def text : FlagPattern → Text
  | exact flag => flag
  | stem t => t ++ "*"
  | number => "-#"

/-- Whether a flag fits the pattern. The first character of a number stands for the dash. -/
def accepts : FlagPattern → Text → Bool
  | exact flag, f => flag == f
  | stem t, f => t.isPrefixOf f
  | number, f => !f.tail.isEmpty && f.tail.all Char.isDigit

end FlagPattern

/-- Which flags of an invocation belong to its command. -/
inductive FlagScope where
  /-- All of them. -/
  | whole
  /-- Those in front of the wrapped command, where the flags `valued` take a value. -/
  | untilCommand (valued : List Text)
  /-- Those up to and with a given one. -/
  | through (stop : Text)
  deriving DecidableEq, Repr

/-- The commands with a rule of their own. -/
inductive Special where
  /-- `head`: first lines. -/
  | head
  /-- `tail`: last lines. -/
  | tail
  /-- `wc`: counts. -/
  | wc
  /-- `sed`: substitution and line selection. -/
  | sed
  /-- `awk`: one field. -/
  | awk
  /-- `cut`: fields. -/
  | cut
  /-- `tr`: characters. -/
  | tr
  /-- `nl`: line numbers. -/
  | nl
  /-- `grep`: lines that match. -/
  | grep
  /-- `less`: paging. -/
  | less
  /-- `more`: paging. -/
  | more
  /-- `rsync`: recursive copy. -/
  | rsync
  /-- `du`: disk usage. -/
  | du
  /-- `chmod`: permissions. -/
  | chmod
  /-- `chown`: owner. -/
  | chown
  /-- `ln`: links. -/
  | ln
  /-- `find`: files of a tree. -/
  | find
  /-- `gzip`: compression. -/
  | gzip
  /-- `gunzip`: decompression. -/
  | gunzip
  /-- `mktemp`: temporary files. -/
  | mktemp
  /-- `rmdir`: empty directories. -/
  | rmdir
  /-- `systemctl`: services. -/
  | systemctl
  /-- `ping`: reachability. -/
  | ping
  /-- `top`: processes. -/
  | top
  /-- `netstat`: connections. -/
  | netstat
  /-- `dig`: names of hosts. -/
  | dig
  /-- `uptime`: time since boot. -/
  | uptime
  /-- `free`: memory. -/
  | free
  /-- `whoami`: the user. -/
  | whoami
  /-- `sleep`: a pause. -/
  | sleep
  /-- `sudo`: elevation of another command. -/
  | superuser
  /-- `xargs`: another command for each item. -/
  | xargs
  /-- `export`: environment variables. -/
  | exportVars
  /-- `unset`: environment variables. -/
  | unsetVars
  deriving DecidableEq, Repr

namespace Special

/-- Every command with a rule of its own, in order. -/
def all : List Special :=
  [.head, .tail, .wc, .sed, .awk, .cut, .tr, .nl, .grep, .less, .more, .rsync, .du, .chmod,
   .chown, .ln, .find, .gzip, .gunzip, .mktemp, .rmdir, .systemctl, .ping, .top, .netstat, .dig,
   .uptime, .free, .whoami, .sleep, .superuser, .xargs, .exportVars, .unsetVars]

/-- The command word. -/
def name : Special → Text
  | head => "head"
  | tail => "tail"
  | wc => "wc"
  | sed => "sed"
  | awk => "awk"
  | cut => "cut"
  | tr => "tr"
  | nl => "nl"
  | grep => "grep"
  | less => "less"
  | more => "more"
  | rsync => "rsync"
  | du => "du"
  | chmod => "chmod"
  | chown => "chown"
  | ln => "ln"
  | find => "find"
  | gzip => "gzip"
  | gunzip => "gunzip"
  | mktemp => "mktemp"
  | rmdir => "rmdir"
  | systemctl => "systemctl"
  | ping => "ping"
  | top => "top"
  | netstat => "netstat"
  | dig => "dig"
  | uptime => "uptime"
  | free => "free"
  | whoami => "whoami"
  | sleep => "sleep"
  | superuser => "sudo"
  | xargs => "xargs"
  | exportVars => "export"
  | unsetVars => "unset"

/-- What the rule does, in a few words. -/
def description : Special → Text
  | head => "First lines of input"
  | tail => "Last lines of input"
  | wc => "Count lines, words or characters"
  | sed => "Stream editor"
  | awk => "Field extraction"
  | cut => "Select fields"
  | tr => "Translate or delete characters"
  | nl => "Number lines"
  | grep => "Search for a pattern"
  | less => "Page through input"
  | more => "Page through input"
  | rsync => "Recursive copy"
  | du => "Disk usage"
  | chmod => "Change permissions"
  | chown => "Change owner"
  | ln => "Create links"
  | find => "Search a directory tree"
  | gzip => "Compress files"
  | gunzip => "Decompress files"
  | mktemp => "Create a temporary file"
  | rmdir => "Remove an empty directory"
  | systemctl => "Manage services"
  | ping => "Test reachability"
  | top => "Busiest processes"
  | netstat => "Network connections"
  | dig => "DNS lookup"
  | uptime => "Time since boot"
  | free => "Memory usage"
  | whoami => "Current user name"
  | sleep => "Pause"
  | superuser => "Run elevated"
  | xargs => "Run a command per input item"
  | exportVars => "Set environment variables"
  | unsetVars => "Remove environment variables"

/-- The flags the rule accepts. -/
def flagPatterns : Special → List FlagPattern
  | head => [.number, .stem "-n", .stem "-c", .stem "--lines=", .exact "-q"]
  | tail =>
    [.number, .stem "-n", .stem "-c", .stem "--lines=", .exact "-f", .exact "-F", .exact "-q"]
  | wc => [.exact "-l", .exact "-w", .exact "-c", .exact "-m"]
  | sed => [.exact "-n", .exact "-e", .exact "-E", .exact "-r", .exact "-i"]
  | awk => [.stem "-F"]
  | cut => [.stem "-d", .stem "-f"]
  | tr => [.exact "-d"]
  | nl => [.exact "-ba"]
  | grep =>
    [.exact "-i", .exact "-v", .exact "-c", .exact "-l", .exact "-n", .exact "-r", .exact "-R",
      .exact "-E", .exact "-F", .exact "-w", .exact "-e", .stem "--color"]
  | less => [.exact "-R", .exact "-S"]
  | more => []
  | rsync =>
    [.exact "-a", .exact "-r", .exact "-v", .exact "-z", .exact "-h", .exact "-P",
      .exact "--progress"]
  | du => [.exact "-s", .exact "-h", .exact "-a", .exact "-c"]
  | chmod => [.exact "-R", .exact "-v"]
  | chown => [.exact "-R", .exact "-v"]
  | ln => [.exact "-s", .exact "-f"]
  | find =>
    [.exact "-name", .exact "-iname", .exact "-type", .exact "-maxdepth", .exact "-delete",
      .exact "-print", .exact "-exec"]
  | gzip => [.exact "-k", .exact "-d", .exact "-f"]
  | gunzip => [.exact "-k", .exact "-f"]
  | mktemp => [.exact "-d", .exact "-t"]
  | rmdir => [.exact "-v"]
  | systemctl => [.exact "--no-pager", .exact "-q"]
  | ping => [.stem "-c", .exact "-q"]
  | top => [.exact "-b", .stem "-n"]
  | netstat => [.exact "-t", .exact "-u", .exact "-l", .exact "-n", .exact "-p", .exact "-a"]
  | dig => []
  | uptime => [.exact "-p", .exact "-s"]
  | free => [.exact "-b", .exact "-k", .exact "-m", .exact "-g", .exact "-h"]
  | whoami => []
  | sleep => []
  | superuser => [.exact "-E", .exact "-H"]
  | xargs => [.exact "-0", .exact "-I", .stem "-n", .exact "-r"]
  | exportVars => [.exact "-p"]
  | unsetVars => [.exact "-v"]

/-- Which flags the rule looks at. -/
def scope : Special → FlagScope
  | find => .through "-exec"
  | superuser => .untilCommand []
  | xargs => .untilCommand ["-I", "-n"]
  | _ => .whole

/-- The command that a word names. -/
def ofName? (name : Text) : Option Special := all.find? (·.name == name)

/-- Whether a pattern of the command fits a flag. -/
def fits (s : Special) (flag : Text) : Bool := s.flagPatterns.any (·.accepts flag)

/-- Whether a flag is accepted, by itself or as a cluster of short flags. -/
def acceptsFlag (s : Special) (flag : Text) : Bool :=
  s.fits flag ||
    match flag with
    | '-' :: cluster =>
      cluster.head? != some '-' && 2 ≤ cluster.length && cluster.all fun c => s.fits ['-', c]
    | _ => false

/-- The elements up to and with the first that equals `stop`. -/
def upThrough (stop : Text) : List Text → List Text
  | [] => []
  | t :: ts => if t = stop then [t] else t :: upThrough stop ts

/-- The flags of an invocation that belong to the command itself. -/
def ownFlags (s : Special) (inv : Invocation) : List Text :=
  match s.scope with
  | .whole => inv.flags
  | .untilCommand valued =>
    let front := inv.words.take ((inv.commandIndex? valued).getD inv.words.length)
    (front.filter (·.isFlag)).map (·.value)
  | .through stop => upThrough stop inv.flags

/-- The flags of the command itself that its rule does not accept. -/
def unsupportedFlags (s : Special) (inv : Invocation) : List Text :=
  (s.ownFlags inv).filter (!s.acceptsFlag ·)

end Special

end CrossShell
