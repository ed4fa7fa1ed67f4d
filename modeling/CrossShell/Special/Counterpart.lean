import CrossShell.Special
import CrossShell.Special.CharSet
import CrossShell.Special.Environment
import CrossShell.Special.Fields
import CrossShell.Special.Files
import CrossShell.Special.Lines
import CrossShell.Special.Pattern
import CrossShell.Special.Pause
import CrossShell.Special.Substitution
import CrossShell.Special.System
import CrossShell.Special.Wrapper

/-!
# The rules of the special commands

`Special.counterpart?` is what an invocation becomes by the rule of its command, without a look at
its flags. What a rule cannot carry over has no counterpart.
-/
namespace CrossShell

/-- The counterpart of an invocation by the rule of a command. -/
def Special.counterpart? (target : Target) (nested : Nested) (s : Special) (inv : Invocation) :
    Option Text :=
  match s with
  | head => convertHead? inv
  | tail => convertTail? inv
  | wc => some (convertWc inv)
  | sed => convertSed? inv
  | awk => convertAwk? inv
  | cut => convertCut? inv
  | tr => convertTr? inv
  | nl => some (convertNl inv)
  | grep => convertGrep? target inv
  | less | more => some (convertPager inv)
  | rsync => convertRsync? inv
  | du => some (convertDu inv)
  | chmod => convertChmod? inv
  | chown => convertChown? inv
  | ln => convertLn? inv
  | find => convertFind? nested inv
  | gzip => convertGzip? inv
  | gunzip => convertGunzip? inv
  | mktemp => some (convertMktemp inv)
  | rmdir => convertRmdir? inv
  | systemctl => convertSystemctl? inv
  | ping => convertPing? inv
  | top => convertTop? inv
  | netstat => convertNetstat? inv
  | dig => convertDig? inv
  | uptime => convertUptime? target inv
  | free => convertFree? inv
  | whoami => convertWhoami? inv
  | sleep => convertSleep? inv
  | superuser => convertSudo? target nested inv
  | xargs => convertXargs? nested inv
  | exportVars => convertExport? inv
  | unsetVars => convertUnset? inv

end CrossShell
