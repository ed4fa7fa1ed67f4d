import CrossShell.Target.Resolve
import CrossShell.Proofs.Text.Trim

/-!
# What the choice of a target depends on

The strongest name that is recognised decides alone: neither the names behind it nor what the
environment looks like change the target or the questions that are put to the host.

* `Spells`: how a name may be written. `NamedShell.ofName?_eq_some_iff` says which names are
  recognised.
* `Provider.resolveM`: the choice as a program that asks the host in a monad, question by question.
  `run_resolveM` says that it asks the calls of `Host.resolve`, in order.
* `Host.resolve_cases`: the four ways in which a target is chosen.
* `Host.resolve_decided_by_first`: two choices with the same first recognised name are the same,
  and so are two choices that differ in names that are not recognised.
-/

namespace CrossShell

open Text (Blank trim toLower)

/-! ## Names -/

/-- A name writes a shell: in any case, with or without `.exe`, and with blanks around it. -/
def Spells (name shell : Text) : Prop :=
  ∃ pre word post, Blank pre ∧ Blank post ∧ name = pre ++ word ++ post ∧
    (toLower word = shell ∨ toLower word = shell ++ ".exe")

/-- White space has no lower case. -/
theorem Text.toLower_of_isBlank {c : Char} (h : isBlank c = true) : c.toLower = c := by
  have hrange : ¬(c.val ≥ 'A'.val ∧ c.val ≤ 'Z'.val) := by
    rintro ⟨hlow, hhigh⟩
    have hle : 65 ≤ c.toNat ∧ c.toNat ≤ 90 := ⟨UInt32.le_iff_toNat_le.mp hlow,
      UInt32.le_iff_toNat_le.mp hhigh⟩
    simp only [isBlank, inRanges, blankRanges, List.any_cons, List.any_nil, Bool.or_false,
      Bool.or_eq_true, Bool.and_eq_true, decide_eq_true_eq] at h
    omega
  exact dif_neg hrange

/-- A word whose lower case has no blanks at its ends has none either. -/
theorem Text.trimmed_of_toLower {word : Text} (h : Trimmed (toLower word)) : Trimmed word := by
  have hblank : ∀ c : Char, isBlank c.toLower = false → isBlank c = false := by
    intro c hlower
    cases hc : isBlank c with
    | false => rfl
    | true => rw [← hlower, toLower_of_isBlank hc, hc]
  constructor
  · intro c hc
    refine hblank c (h.front _ ?_)
    rw [toLower, List.head?_map, Option.mem_def.mp hc]
    rfl
  · intro c hc
    refine hblank c (h.back _ ?_)
    rw [toLower, List.getLast?_map, Option.mem_def.mp hc]
    rfl

namespace NamedShell

/-- A name without blanks at its ends has none with `.exe` behind it. -/
theorem trimmed_append_exe {base : Text} (hne : base ≠ []) (h : Text.Trimmed base) :
    Text.Trimmed (base ++ ".exe") := by
  refine ⟨fun c hc => h.front c ?_, fun c hc => ?_⟩
  · cases base with
    | nil => exact absurd rfl hne
    | cons b base => exact hc
  · have hlast : (base ++ ['.', 'e', 'x', 'e']).getLast? = some 'e' := by simp
    obtain rfl : 'e' = c := Option.some.inj (hlast.symm.trans hc)
    rfl

/-- The names of the list are in the form in which names are looked up. -/
theorem names_normal {base : Text} {shell : NamedShell} (h : (base, shell) ∈ names) :
    names.lookup base = some shell ∧ Text.dropBack? base ".exe" = none ∧ base ≠ [] ∧
      Text.Trimmed base := by
  have hall : ∀ p ∈ names, names.lookup p.1 = some p.2 ∧ Text.dropBack? p.1 ".exe" = none ∧
      p.1 ≠ [] ∧ (∀ c ∈ p.1.head?, Text.isBlank c = false) ∧
      ∀ c ∈ p.1.getLast?, Text.isBlank c = false := by decide
  obtain ⟨hlookup, hback, hne, hfront, hlast⟩ := hall _ h
  exact ⟨hlookup, hback, hne, hfront, hlast⟩

theorem normalize_eq (name : Text) : normalize name =
    (Text.dropBack? (toLower (trim name)) ".exe").getD (toLower (trim name)) := rfl

theorem normalize_eq_of_spells {name base : Text} (hne : base ≠ []) (htrimmed : Text.Trimmed base)
    (hback : Text.dropBack? base ".exe" = none) (h : Spells name base) : normalize name = base := by
  obtain ⟨pre, word, post, hpre, hpost, rfl, hword⟩ := h
  have hlower : Text.Trimmed (toLower word) := by
    rcases hword with hword | hword <;> rw [hword]
    · exact htrimmed
    · exact trimmed_append_exe hne htrimmed
  rw [normalize_eq, Text.trim_of_trimmed hpre (Text.trimmed_of_toLower hlower) hpost]
  rcases hword with hword | hword <;> rw [hword]
  · rw [hback, Option.getD_none]
  · rw [Text.dropBack?_append, Option.getD_some]

theorem spells_normalize (name : Text) : Spells name (normalize name) := by
  obtain ⟨pre, post, hpre, hpost, hname, -⟩ := Text.exists_eq_trim name
  refine ⟨pre, trim name, post, hpre, hpost, hname, ?_⟩
  rw [normalize_eq]
  cases hback : Text.dropBack? (toLower (trim name)) ".exe" with
  | none => exact .inl rfl
  | some base =>
    refine .inr ?_
    rw [Option.getD_some]
    rw [Text.dropBack?] at hback
    split at hback
    · next hsuffix =>
      obtain ⟨front, hfront⟩ := List.isSuffixOf_iff_suffix.mp hsuffix
      rw [← hfront] at hback ⊢
      rw [← Option.some.inj hback]
      simp
    · cases hback

/-- The names that are recognised: those of the list, in any of their spellings. -/
theorem ofName?_eq_some_iff {name : Text} {shell : NamedShell} :
    ofName? name = some shell ↔ ∃ base, (base, shell) ∈ names ∧ Spells name base := by
  constructor
  · intro h
    obtain ⟨front, rest, hnames, -⟩ := List.lookup_eq_some_iff.mp h
    exact ⟨normalize name, by simp [hnames], spells_normalize name⟩
  · rintro ⟨base, hmem, hspells⟩
    obtain ⟨hlookup, hback, hne, htrimmed⟩ := names_normal hmem
    rw [ofName?, normalize_eq_of_spells hne htrimmed hback hspells, hlookup]

/-- A name that is recognised. -/
def Recognised (name : Text) : Prop := ∃ p ∈ names, Spells name p.1

theorem isSome_ofName?_iff {name : Text} : (ofName? name).isSome = true ↔ Recognised name := by
  rw [Option.isSome_iff_exists]
  constructor
  · rintro ⟨shell, h⟩
    obtain ⟨base, hmem, hspells⟩ := ofName?_eq_some_iff.mp h
    exact ⟨(base, shell), hmem, hspells⟩
  · rintro ⟨⟨base, shell⟩, hmem, hspells⟩
    exact ⟨shell, ofName?_eq_some_iff.mpr ⟨base, hmem, hspells⟩⟩

instance (name : Text) : Decidable (Recognised name) :=
  decidable_of_iff _ isSome_ofName?_iff

/-- Of the shells with a name, two have a version. -/
theorem exists_powerShell_iff {name : Text} {shell : NamedShell} (h : ofName? name = some shell) :
    (∃ exe, shell = .powerShell exe) ↔ Spells name "pwsh" ∨ Spells name "powershell" := by
  constructor
  · rintro ⟨exe, rfl⟩
    obtain ⟨base, hmem, hspells⟩ := ofName?_eq_some_iff.mp h
    have hall : ∀ p ∈ names, p.2 = .powerShell exe → p.1 = "pwsh" ∨ p.1 = "powershell" := by
      simp [names]
    rcases hall _ hmem rfl with hbase | hbase
    · exact .inl (hbase ▸ hspells)
    · exact .inr (hbase ▸ hspells)
  · rintro (hspells | hspells)
    · exact ⟨"pwsh", Option.some.inj (h.symm.trans
        (ofName?_eq_some_iff.mpr ⟨"pwsh", by simp [names], hspells⟩))⟩
    · exact ⟨"powershell", Option.some.inj (h.symm.trans
        (ofName?_eq_some_iff.mpr ⟨"powershell", by simp [names], hspells⟩))⟩

end NamedShell

/-! ## Asking the host -/

/-- A host that answers in a monad. -/
structure Provider (m : Type → Type) where
  /-- The value of an environment variable. -/
  var : Text → m (Option Text)
  /-- Whether a program is installed. -/
  locate : Text → m Bool
  /-- The major version of a PowerShell executable, if it can be found out. -/
  probe : Text → m (Option Nat)

namespace Provider

variable {m : Type → Type} [Monad m]

/-- The target for a shell asked for by name. -/
def namedM (p : Provider m) : NamedShell → m Target
  | .posix => return .posix
  | .console => return .console
  | .powerShell exe => return .powerShell (← p.probe exe)

/-- The target that the environment points to. A variable is asked for only if the ones before it
have not decided. -/
def detectM (p : Provider m) : m Target := do
  if (← p.var "PSModulePath").isSome then
    let exe : Text := if ← p.locate "pwsh" then "pwsh" else "powershell"
    return .powerShell (← p.probe exe)
  if (← p.var "SHELL").isSome then return .posix
  if (← p.var "PROMPT").isSome then
    if (← p.var "ComSpec").isSome then return .console
  return .posix

/-- The target for names, the strongest first. -/
def chooseM (p : Provider m) : List Text → m Target
  | [] => p.detectM
  | name :: names =>
    match NamedShell.ofName? name with
    | some shell => p.namedM shell
    | none => p.chooseM names

/-- The target for a line. -/
def resolveM (p : Provider m) (explicit configured : Option Text) : m Target := do
  let fromEnvironment ← p.var "CMDX_SHELL"
  p.chooseM ([explicit, fromEnvironment, configured].filterMap id)

end Provider

/-- The host as one that writes down the questions that take time. -/
def Host.recorded (host : Host) : Provider (StateM (List HostCall)) where
  var key := pure (host.var key)
  locate exe := do
    modify (· ++ [.locate exe])
    return host.locate exe
  probe exe := do
    modify (· ++ [.probe exe])
    return host.probe exe

namespace Host

variable (host : Host)

theorem run_namedM (shell : NamedShell) (calls : List HostCall) :
    (host.recorded.namedM shell).run calls =
      ((shell.resolve host).target, calls ++ (shell.resolve host).calls) := by
  cases shell with
  | posix => exact congrArg (Prod.mk _) (List.append_nil calls).symm
  | console => exact congrArg (Prod.mk _) (List.append_nil calls).symm
  | powerShell exe => rfl

theorem run_detectM (calls : List HostCall) :
    host.recorded.detectM.run calls = (host.detect.target, calls ++ host.detect.calls) := by
  have hvar : ∀ key, host.recorded.var key = pure (host.var key) := fun _ => rfl
  simp only [Provider.detectM, detect, hvar, pure_bind]
  by_cases hmodules : (host.var "PSModulePath").isSome = true
  · rw [if_pos hmodules, if_pos hmodules]
    exact congrArg (Prod.mk _) (List.append_assoc calls _ _)
  · rw [if_neg hmodules, if_neg hmodules]
    by_cases hshell : (host.var "SHELL").isSome = true
    · rw [if_pos hshell, if_pos hshell]
      exact congrArg (Prod.mk _) (List.append_nil calls).symm
    · rw [if_neg hshell, if_neg hshell]
      cases (host.var "PROMPT").isSome <;> cases (host.var "ComSpec").isSome <;>
        exact congrArg (Prod.mk _) (List.append_nil calls).symm

/-- The target for names, the strongest first. -/
def choose (names : List Text) : Resolution :=
  match names.findSome? NamedShell.ofName? with
  | some shell => shell.resolve host
  | none => host.detect

theorem resolve_eq (explicit configured : Option Text) :
    host.resolve explicit configured = host.choose (host.candidates explicit configured) := rfl

variable {host}

theorem choose_cons_of_some {name : Text} {shell : NamedShell}
    (h : NamedShell.ofName? name = some shell) (names : List Text) :
    host.choose (name :: names) = shell.resolve host := by
  simp only [choose, List.findSome?_cons, h]

theorem choose_cons_of_none {name : Text} (h : NamedShell.ofName? name = none)
    (names : List Text) : host.choose (name :: names) = host.choose names := by
  simp only [choose, List.findSome?_cons, h]

theorem run_chooseM (names : List Text) (calls : List HostCall) :
    (host.recorded.chooseM names).run calls =
      ((host.choose names).target, calls ++ (host.choose names).calls) := by
  induction names with
  | nil => exact host.run_detectM calls
  | cons name names ih =>
    rw [Provider.chooseM]
    cases hname : NamedShell.ofName? name with
    | none =>
      rw [choose_cons_of_none hname]
      exact ih
    | some shell =>
      rw [choose_cons_of_some hname]
      exact host.run_namedM shell calls

/-- The choice asks the host the questions that it lists. -/
theorem run_resolveM (explicit configured : Option Text) (calls : List HostCall) :
    (host.recorded.resolveM explicit configured).run calls =
      ((host.resolve explicit configured).target,
        calls ++ (host.resolve explicit configured).calls) := by
  have hvar : host.recorded.var "CMDX_SHELL" = pure (host.var "CMDX_SHELL") := rfl
  rw [Provider.resolveM, hvar, pure_bind, run_chooseM]
  rfl

/-! ## The name that decides -/

/-- The first of the names that is recognised. -/
def first? (host : Host) (explicit configured : Option Text) : Option Text :=
  (host.candidates explicit configured).find? (NamedShell.Recognised ·)

/-- The names that are recognised, in order. -/
def recognised (host : Host) (explicit configured : Option Text) : List Text :=
  (host.candidates explicit configured).filter (NamedShell.Recognised ·)

/-- Two hosts look alike to a choice without names. -/
structure Alike (host host' : Host) : Prop where
  var : ∀ key ∈ ["PSModulePath".toList, "SHELL", "PROMPT", "ComSpec"], host'.var key = host.var key
  locate : host'.locate = host.locate
  probe : host'.probe = host.probe

theorem not_recognised_iff {name : Text} :
    ¬NamedShell.Recognised name ↔ NamedShell.ofName? name = none := by
  rw [← NamedShell.isSome_ofName?_iff, Option.not_isSome_iff_eq_none]

/-- Names that are not recognised may as well be missing. -/
theorem choose_filter (names : List Text) :
    host.choose (names.filter (NamedShell.Recognised ·)) = host.choose names := by
  induction names with
  | nil => rfl
  | cons name names ih =>
    by_cases hname : NamedShell.Recognised name
    · obtain ⟨shell, hshell⟩ :=
        Option.isSome_iff_exists.mp (NamedShell.isSome_ofName?_iff.mpr hname)
      rw [List.filter_cons_of_pos (by simpa using hname), choose_cons_of_some hshell,
        choose_cons_of_some hshell]
    · rw [List.filter_cons_of_neg (by simpa using hname), ih,
        choose_cons_of_none (not_recognised_iff.mp hname)]

/-- The first name that is recognised is the only one that counts. -/
theorem resolve_of_first? {explicit configured : Option Text} {name : Text}
    (h : host.first? explicit configured = some name) :
    ∃ shell, NamedShell.ofName? name = some shell ∧
      host.resolve explicit configured = shell.resolve host := by
  obtain ⟨hname, front, rest, hnames, hfront⟩ := List.find?_eq_some_iff_append.mp h
  have hrecognised : NamedShell.Recognised name := by simpa using hname
  obtain ⟨shell, hshell⟩ :=
    Option.isSome_iff_exists.mp (NamedShell.isSome_ofName?_iff.mpr hrecognised)
  refine ⟨shell, hshell, ?_⟩
  have hnone : front.filter (NamedShell.Recognised ·) = [] :=
    List.filter_eq_nil_iff.mpr fun n hn => by simpa using hfront n hn
  rw [resolve_eq, hnames, ← choose_filter, List.filter_append, hnone, List.nil_append,
    choose_filter, choose_cons_of_some hshell]

/-- Without a name, hosts that look alike have the same target. -/
theorem Alike.detect_eq {host' : Host} (h : Alike host host') : host'.detect = host.detect := by
  have hname : host'.powerShellName = host.powerShellName := by
    simp only [powerShellName, h.locate]
  simp only [detect, hname, h.probe, h.var _ (by decide : "PSModulePath".toList ∈ _),
    h.var _ (by decide : "SHELL".toList ∈ _), h.var _ (by decide : "PROMPT".toList ∈ _),
    h.var _ (by decide : "ComSpec".toList ∈ _)]

theorem resolve_shell_congr {host' : Host} (h : host'.probe = host.probe) (shell : NamedShell) :
    shell.resolve host' = shell.resolve host := by
  cases shell <;> simp only [NamedShell.resolve, h]

theorem Alike.choose_eq {host' : Host} (h : Alike host host') (names : List Text) :
    host'.choose names = host.choose names := by
  unfold choose
  cases names.findSome? NamedShell.ofName? with
  | none => exact h.detect_eq
  | some shell => exact resolve_shell_congr h.probe shell

/-- The four ways in which a target is chosen: two without a question, one with a question for the
version, and one that looks for the executable before. -/
theorem resolve_cases (host : Host) (explicit configured : Option Text) :
    host.resolve explicit configured ∈ [⟨.posix, []⟩, ⟨.console, []⟩] ∨
      ∃ exe, host.resolve explicit configured ∈
        [⟨.powerShell (host.probe exe), [.probe exe]⟩,
          ⟨.powerShell (host.probe exe), [.locate "pwsh", .probe exe]⟩] := by
  rw [resolve_eq, choose]
  cases (host.candidates explicit configured).findSome? NamedShell.ofName? with
  | some shell =>
    cases shell with
    | posix => exact .inl (by simp [NamedShell.resolve])
    | console => exact .inl (by simp [NamedShell.resolve])
    | powerShell exe => exact .inr ⟨exe, by simp [NamedShell.resolve]⟩
  | none =>
    simp only [detect]
    split
    · exact .inr ⟨host.powerShellName, by simp⟩
    · split
      · exact .inl (by simp)
      · split
        · exact .inl (by simp)
        · exact .inl (by simp)

end Host

/-- Whether a call asks for a version. -/
def HostCall.isProbe : HostCall → Bool
  | locate _ => false
  | probe _ => true

namespace NamedShell

/-- For a shell asked for by name, nothing but a version is asked for, and this only of a
PowerShell. -/
theorem calls_resolve (host : Host) (shell : NamedShell) :
    (∀ call ∈ (shell.resolve host).calls, call.isProbe = true) ∧
      ((∃ call ∈ (shell.resolve host).calls, call.isProbe = true) ↔
        ∃ exe, shell = .powerShell exe) := by
  cases shell <;> simp [resolve, HostCall.isProbe]

end NamedShell

namespace Target

/-- PowerShell has connectors from version 7 on. -/
theorem nativeConnectors_powerShell (version : Option Nat) :
    (powerShell version).nativeConnectors = true ↔ ∃ v, version = some v ∧ 7 ≤ v := by
  cases version <;> simp [powerShell]

end Target

namespace Host

/-- Each kind of question is put at most once. -/
theorem countP_calls_le (host : Host) (explicit configured : Option Text) :
    (host.resolve explicit configured).calls.countP (·.isProbe) ≤ 1 ∧
      (host.resolve explicit configured).calls.countP (!·.isProbe) ≤ 1 := by
  rcases host.resolve_cases explicit configured with hchoice | ⟨exe, hchoice⟩ <;>
    simp only [List.mem_cons, List.not_mem_nil, or_false] at hchoice <;>
    rcases hchoice with hchoice | hchoice <;>
    simp [hchoice, HostCall.isProbe]

theorem nativeConnectors_resolve (host : Host) (explicit configured : Option Text) :
    let target := (host.resolve explicit configured).target
    target.nativeConnectors = true ↔ target.kind = .posix ∨
      target.kind = .powerShell ∧ ∃ v, target.version = some v ∧ 7 ≤ v := by
  rcases host.resolve_cases explicit configured with hchoice | ⟨exe, hchoice⟩ <;>
    simp only [List.mem_cons, List.not_mem_nil, or_false] at hchoice
  · rcases hchoice with hchoice | hchoice <;> simp [hchoice, Target.posix, Target.console]
  · have htarget : (host.resolve explicit configured).target = .powerShell (host.probe exe) := by
      rcases hchoice with hchoice | hchoice <;> rw [hchoice]
    intro target
    rw [show target = _ from htarget, Target.nativeConnectors_powerShell]
    simp [Target.powerShell]

/-- **The first recognised name decides the target.** The questions put to the host are those that
the choice lists. If a name is recognised, the target and the questions are the same for every host
with these versions and for all names with this first one; no program is looked for, and a version
is asked for exactly if the name is one of PowerShell. Names that are not recognised do not matter.
At most one version is asked for and at most one program looked for, and the target has connectors
exactly if it is a POSIX shell or a PowerShell known to have version 7 or later. -/
theorem resolve_decided_by_first (host : Host) (explicit configured : Option Text) :
    let choice := host.resolve explicit configured
    (host.recorded.resolveM explicit configured).run [] = (choice.target, choice.calls) ∧
      (∀ name, host.first? explicit configured = some name →
        (∀ (host' : Host) (explicit' configured' : Option Text), host'.probe = host.probe →
          host'.first? explicit' configured' = some name →
          host'.resolve explicit' configured' = choice) ∧
        (∀ call ∈ choice.calls, call.isProbe = true) ∧
        ((∃ call ∈ choice.calls, call.isProbe = true) ↔
          Spells name "pwsh" ∨ Spells name "powershell")) ∧
      (∀ (host' : Host) (explicit' configured' : Option Text), Alike host host' →
        host'.recognised explicit' configured' = host.recognised explicit configured →
        host'.resolve explicit' configured' = choice) ∧
      choice.calls.countP (·.isProbe) ≤ 1 ∧ choice.calls.countP (!·.isProbe) ≤ 1 ∧
      (choice.target.nativeConnectors = true ↔ choice.target.kind = .posix ∨
        choice.target.kind = .powerShell ∧ ∃ v, choice.target.version = some v ∧ 7 ≤ v) := by
  intro choice
  obtain ⟨hprobes, hlocates⟩ := host.countP_calls_le explicit configured
  refine ⟨?_, fun name hname => ?_, fun host' explicit' configured' halike hnames => ?_, hprobes,
    hlocates, host.nativeConnectors_resolve explicit configured⟩
  · rw [run_resolveM, List.nil_append]
  · obtain ⟨shell, hshell, hchoice⟩ := resolve_of_first? hname
    obtain ⟨hcalls, hprobe⟩ := shell.calls_resolve host
    have hresolved : choice = shell.resolve host := hchoice
    rw [hresolved, ← NamedShell.exists_powerShell_iff hshell]
    refine ⟨fun host' explicit' configured' hversions hname' => ?_, hcalls, hprobe⟩
    obtain ⟨shell', hshell', hchoice'⟩ := resolve_of_first? hname'
    obtain rfl : shell = shell' := Option.some.inj (hshell.symm.trans hshell')
    rw [hchoice', resolve_shell_congr hversions]
  · show host'.choose _ = host.choose _
    rw [← choose_filter, ← @choose_filter host, ← recognised, hnames]
    exact halike.choose_eq _

end Host

/-- A host that names PowerShell in the environment, in an odd spelling, and has version 7 of it. -/
def namingHost : Host where
  var key :=
    if key = "CMDX_SHELL" then some " PwSh.EXE" else if key = "PSModulePath" then some "m" else none
  locate _ := false
  probe exe := if exe = "pwsh" then some 7 else none

/-- A host without any variables on which every program is installed. -/
def plainHost : Host := { namingHost with var := fun _ => none, locate := fun _ => true }

/-- The name counts wherever it comes from: in the environment behind one that is not recognised and
before another shell, or on the command line of a host that looks different. -/
theorem resolve_decided_by_first_namingHost :
    namingHost.first? (some "tcsh") (some "cmd") = some " PwSh.EXE" ∧
      plainHost.first? (some " PwSh.EXE") (some "bash") = some " PwSh.EXE" ∧
      plainHost.resolve (some " PwSh.EXE") (some "bash") =
        namingHost.resolve (some "tcsh") (some "cmd") ∧
      namingHost.resolve (some "tcsh") (some "cmd") =
        ⟨.powerShell (some 7), [.probe "pwsh"]⟩ ∧
      namingHost.recognised none (some "cmd") = namingHost.recognised (some "tcsh") (some "cmd") ∧
      namingHost.resolve none (some "cmd") = namingHost.resolve (some "tcsh") (some "cmd") := by
  have hname : namingHost.first? (some "tcsh") (some "cmd") = some " PwSh.EXE" := by
    decide +kernel
  have hplain : plainHost.first? (some " PwSh.EXE") (some "bash") = some " PwSh.EXE" := by
    decide +kernel
  have hnames : namingHost.recognised none (some "cmd") =
      namingHost.recognised (some "tcsh") (some "cmd") := by decide +kernel
  obtain ⟨-, hfirst, halike, -⟩ :=
    namingHost.resolve_decided_by_first (some "tcsh") (some "cmd")
  obtain ⟨hsame, -⟩ := hfirst _ hname
  exact ⟨hname, hplain, hsame plainHost _ _ rfl hplain, by decide +kernel, hnames,
    halike namingHost _ _ ⟨fun _ _ => rfl, rfl, rfl⟩ hnames⟩

end CrossShell
