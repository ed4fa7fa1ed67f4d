import CrossShell.Proofs.Special.Variables
import CrossShell.Proofs.Written.SelfContained
import CrossShell.Special.Files
import CrossShell.Special.Pause
import CrossShell.Special.System

/-!
# What the rules of the commands for files and the system write

Files, services, hosts and processes are named in the text by words of the source, so these have to
be self-contained. Only `export` takes a word apart: a value with a reference is written in double
quotes, whatever stood around it, and its references become longer.

* `begins_convertRsync`, …, `begins_convertDig`: the commands whose words are written as they are.
* `Scan.after_expandReferences`: inside of double quotes, references are read like what replaces
  them.
* `Quotable`: a value that can stand in double quotes. `begins_convertExport`: then `export` is one
  of the commands above.
-/

namespace CrossShell

open Text (singleQuoted)

variable {inv : Invocation} {text : Text}

/-! ## Files -/

theorem leads_right {mode right : Text} (hr : ownerRight? mode = some right) :
    Leads .firm (" /grant \"$\x7benv:USERNAME\x7d:(" ++ right ++ ")\"") .firm := by
  have hdigit : ∃ c, rightOfDigit? c = some right := by
    unfold ownerRight? at hr
    split at hr
    · split at hr
      · exact ⟨_, hr⟩
      · exact ⟨_, hr⟩
      · cases hr
    · cases hr
  obtain ⟨c, hc⟩ := hdigit
  unfold rightOfDigit? at hc
  split at hc <;> cases hc <;> exact leads_literals rfl rfl rfl (by decide)

theorem leads_treeSwitch (inv : Invocation) : Leads .firm (treeSwitch inv) .firm :=
  (leads_literal rfl (by decide)).optional

theorem begins_fileLoop {files : List Text} (hfiles : ∀ f ∈ files, SelfContained f) (keep : Bool)
    {statements : List Text} (hstatements : ∀ t ∈ statements, Leads .start t .firm) :
    Begins (fileLoop files keep statements) .firm := by
  have hall : ∀ t ∈ statements ++ (if keep then [] else ["Remove-Item $f.FullName".toList]),
      Leads .start t .firm := by
    intro t ht
    rcases List.mem_append.mp ht with ht | ht
    · exact hstatements t ht
    · split at ht
      · cases ht
      · rw [List.mem_singleton.mp ht]
        exact leads_literal rfl (by decide)
  have hsemicolon : Leads .firm "; " .start := leads_literal rfl (by decide)
  have hbody := leads_scriptBlock ((leads_join rfl hsemicolon hall).relax (by decide))
  have hfront : Begins "foreach ($f in (Get-Item " (Point.start.under ⟨2, 0⟩) :=
    begins_literal rfl (by decide)
  have hclose : Leads (Point.firm.under ⟨2, 0⟩) ")) " .settled :=
    leads_literal rfl (by decide)
  exact (((hfront.append ((leads_commaList_words hfiles).frame _)).append hclose).append hbody).firm

theorem begins_compressLoop {files : List Text} (hfiles : ∀ f ∈ files, SelfContained f)
    (keep : Bool) : Begins (compressLoop files keep) .firm := by
  refine begins_fileLoop hfiles keep fun t ht => ?_
  simp only [List.mem_cons, List.not_mem_nil, or_false] at ht
  rcases ht with rfl | rfl | rfl | rfl | rfl | rfl | rfl <;>
    exact leads_literal rfl (by decide)

theorem begins_decompressLoop {files : List Text} (hfiles : ∀ f ∈ files, SelfContained f)
    (keep : Bool) : Begins (decompressLoop files keep) .firm := by
  refine begins_fileLoop hfiles keep fun t ht => ?_
  simp only [List.mem_cons, List.not_mem_nil, or_false] at ht
  rcases ht with rfl | rfl | rfl | rfl | rfl | rfl | rfl <;>
    exact leads_literal rfl (by decide)

theorem begins_forTargets {target : Text} {targets : List Text} {statement : Text → Text}
    (hs : ∀ t ∈ target :: targets, Begins (statement t) .firm) :
    Begins (forTargets (target :: targets) statement) .firm := by
  refine begins_statements (by simp) fun t ht => ?_
  obtain ⟨u, hu, rfl⟩ := List.mem_map.mp ht
  exact hs u hu

section Files

variable (h : inv.SelfContained)
include h

theorem begins_convertRsync (ht : convertRsync? inv = some text) : Begins text .firm := by
  unfold convertRsync? at ht
  split at ht
  · split at ht
    · rename_i source destination hwords
      cases ht
      have hpos := h.positionals []
      rw [hwords] at hpos
      have hsource := (hpos source (by simp)).leads
      have hcontents : Leads .start (if source.getLast? = some '/' then source ++ "*" else source)
          .firm := by
        split
        · exact hsource.append (leads_ordinary (by decide) (by decide) (by decide +kernel))
        · exact hsource
      have hfront : Begins "Copy-Item -Path " .start := begins_literal rfl (by decide)
      exact h.begins_finish ((((hfront.append hcontents).literal rfl (by decide)).append
        (hpos destination (by simp)).leads).literal rfl (by decide))
    · cases ht
  · cases ht

theorem begins_convertDu : Begins (convertDu inv) .firm := by
  have hfront : Begins "Get-ChildItem -Path " .start := begins_literal rfl (by decide)
  have hfiles : Begins ("Get-ChildItem -Path " ++ pathList (inv.positionals []) ++
      " -Recurse -File") .firm :=
    (hfront.append (leads_pathList (h.positionals []))).literal rfl (by decide)
  have hsum : Leads .start sizeSum .firm := leads_literal rfl (by decide)
  unfold convertDu
  dsimp only
  refine h.begins_finish ?_
  split
  · split
    · have hblock : Leads .start "'\x7b0:N1\x7d KB' -f ($_.Length / 1KB)" .resting :=
        leads_literal rfl (by decide)
      have hopen : Leads .firm " | Select-Object FullName, @\x7bName='Size'; Expression="
          (Point.settled.under ⟨0, 1⟩) :=
        leads_literal rfl (by decide)
      exact ((hfiles.append hopen).append ((leads_scriptBlock hblock).frame _)).literal rfl
        (by decide +kernel)
    · exact hfiles.literal rfl (by decide)
  split
  · have hopen : Begins "'\x7b0:N1\x7d MB' -f ((" (Point.start.under ⟨2, 0⟩) :=
      begins_literal rfl (by decide)
    have hclose : Leads (Point.firm.under ⟨2, 0⟩) ").Sum / 1MB)" .firm :=
      leads_literal rfl (by decide)
    exact (((hopen.append (hfiles.leads.frame _)).append (leads_pipe.firm.frame _)).append
      (hsum.frame _)).append hclose
  · exact ((hfiles.append leads_pipe.firm).append hsum).literal rfl (by decide)

theorem begins_convertChmod (ht : convertChmod? inv = some text) : Begins text .firm := by
  unfold convertChmod? at ht
  split at ht
  · rename_i mode target targets hwords
    obtain ⟨right, hright, ht⟩ := Option.bind_eq_some_iff.mp ht
    cases ht
    have hpos := h.positionals []
    rw [hwords] at hpos
    refine h.begins_finish (begins_forTargets fun t ht => ?_)
    have hfront : Begins "icacls " .start := begins_literal rfl (by decide)
    have hgrant := (hfront.append (hpos t (List.mem_cons_of_mem _ ht)).leads).append
      (leads_right hright)
    have hstatement := hgrant.append (leads_treeSwitch inv)
    simp only [List.append_assoc] at hstatement ⊢
    exact hstatement
  · cases ht

theorem begins_convertChown
    (howner : ∀ owner ∈ (inv.positionals []).head?, SelfContained (owner.takeWhile (· != ':')))
    (ht : convertChown? inv = some text) : Begins text .firm := by
  unfold convertChown? at ht
  split at ht
  · rename_i owner target targets hwords
    dsimp only at ht
    split at ht
    · cases ht
    · cases ht
      have hpos := h.positionals []
      rw [hwords] at hpos howner
      refine h.begins_finish (begins_forTargets fun t ht => ?_)
      have hfront : Begins "icacls " .start := begins_literal rfl (by decide)
      have hswitch : Leads .firm " /setowner " .start := leads_literal rfl (by decide)
      exact (((hfront.append (hpos t (List.mem_cons_of_mem _ ht)).leads).append hswitch).append
        (howner owner rfl).leads).append (leads_treeSwitch inv)
  · cases ht

theorem begins_convertLn (ht : convertLn? inv = some text) : Begins text .firm := by
  unfold convertLn? at ht
  split at ht
  · rename_i target link hwords
    cases ht
    have hpos := h.positionals []
    rw [hwords] at hpos
    have hfront : Begins "New-Item -ItemType " .start := begins_literal rfl (by decide)
    have hkind :
        Leads .start (if inv.hasShort 's' then "SymbolicLink".toList else "HardLink") .firm := by
      split <;> exact leads_literal rfl (by decide)
    have hforce : Leads .firm (if inv.hasShort 'f' then " -Force".toList else "") .firm :=
      (leads_literal rfl (by decide)).optional
    exact h.begins_finish ((((((hfront.append hkind).literal rfl (by decide)).append
      (hpos link (by simp)).leads).literal rfl (by decide)).append
        (hpos target (by simp)).leads).append hforce)
  · cases ht

theorem begins_convertGzip (ht : convertGzip? inv = some text) : Begins text .firm := by
  unfold convertGzip? at ht
  dsimp only at ht
  split at ht
  · cases ht
  · cases ht
    refine h.begins_finish ?_
    split
    · exact begins_decompressLoop (h.positionals []) _
    · exact begins_compressLoop (h.positionals []) _

theorem begins_convertGunzip (ht : convertGunzip? inv = some text) : Begins text .firm := by
  unfold convertGunzip? at ht
  dsimp only at ht
  split at ht
  · cases ht
  · cases ht
    exact h.begins_finish (begins_decompressLoop (h.positionals []) _)

theorem begins_convertMktemp : Begins (convertMktemp inv) .firm := by
  unfold convertMktemp
  refine h.begins_finish ?_
  split
  · have hfront : Begins
        "New-Item -ItemType Directory -Path (Join-Path ([IO.Path]::GetTempPath()) "
        (Point.start.under ⟨1, 0⟩) :=
      begins_literal rfl (by decide)
    exact hfront.literal rfl (by decide)
  · exact begins_literal rfl (by decide)

theorem begins_convertRmdir (ht : convertRmdir? inv = some text) : Begins text .firm := by
  unfold convertRmdir? at ht
  dsimp only at ht
  split at ht
  · cases ht
  · cases ht
    have hfront : Begins "Remove-Item -Path " .start := begins_literal rfl (by decide)
    exact h.begins_finish (hfront.append (leads_commaList_words (h.positionals [])))

end Files

/-! ## Services, network and processes -/

theorem begins_serviceCommand {action names : Text} (hnames : Leads .start names .firm)
    (ht : serviceCommand? action names = some text) : Begins text .firm := by
  unfold serviceCommand? at ht
  repeat' split at ht
  all_goals cases ht
  · exact (begins_literal rfl (by decide)).append hnames
  · exact (begins_literal rfl (by decide)).append hnames
  · exact (begins_literal rfl (by decide)).append hnames
  · exact ((begins_literal rfl (by decide)).append hnames).literal rfl (by decide)
  · exact (begins_literal rfl (by decide)).append hnames
  · exact ((begins_literal rfl (by decide)).append hnames).literal rfl (by decide)
  · exact ((begins_literal rfl (by decide)).append hnames).literal rfl (by decide)

section System

variable (h : inv.SelfContained)
include h

theorem begins_convertSystemctl
    (hunits : ∀ w ∈ inv.positionals [], ∀ unit ∈ Text.dropBack? w ".service", SelfContained unit)
    (ht : convertSystemctl? inv = some text) : Begins text .firm := by
  unfold convertSystemctl? at ht
  split at ht
  · rename_i action unit units hwords
    obtain ⟨body, hbody, rfl⟩ := Option.map_eq_some_iff.mp ht
    have hpos := h.positionals []
    rw [hwords] at hpos hunits
    refine h.begins_finish (begins_serviceCommand (leads_commaList_words fun w hw => ?_) hbody)
    obtain ⟨u, hu, rfl⟩ := List.mem_map.mp hw
    have hu' := List.mem_cons_of_mem action hu
    cases hdrop : Text.dropBack? u ".service" with
    | none => exact hpos u hu'
    | some unit => exact hunits u hu' unit hdrop
  · cases ht

theorem begins_convertPing (ht : convertPing? inv = some text) : Begins text .firm := by
  unfold convertPing? at ht
  split at ht
  · rename_i host hwords
    obtain ⟨count, hcount, ht⟩ := Option.bind_eq_some_iff.mp ht
    cases ht
    have hhost := h.positionals ["-c"] host (by rw [hwords]; simp)
    have hfront : Begins "Test-Connection -ComputerName " .start :=
      begins_literal rfl (by decide)
    refine h.begins_finish ((hfront.append hhost.leads).append ?_)
    unfold countSwitch? at hcount
    split at hcount
    · cases hcount
      exact leads_nil _
    · obtain ⟨n, -, hcount⟩ := Option.bind_eq_some_iff.mp hcount
      cases hcount
      have hswitch : Leads .firm " -Count " .settled := leads_literal rfl (by decide)
      exact (hswitch.append (leads_ofNat n)).relax (by decide)
  · cases ht

theorem begins_convertTop (ht : convertTop? inv = some text) : Begins text .firm := by
  unfold convertTop? at ht
  split at ht
  · cases ht
    exact h.begins_finish (begins_literal rfl (by decide))
  · cases ht

theorem begins_convertNetstat (ht : convertNetstat? inv = some text) : Begins text .firm := by
  unfold convertNetstat? at ht
  split at ht
  · cases ht
    refine h.begins_finish ?_
    have htcp : Begins (if inv.hasShort 'l' then "Get-NetTCPConnection -State Listen".toList
        else "Get-NetTCPConnection") .firm := by
      split <;> exact begins_literal rfl (by decide)
    split
    · exact begins_literal rfl (by decide)
    · have hopen : Begins "@(" (Point.start.under ⟨1, 0⟩) := begins_literal rfl (by decide)
      have hclose : Leads (Point.firm.under ⟨1, 0⟩) ") + @(Get-NetUDPEndpoint)" .firm :=
        leads_literal rfl (by decide)
      exact (hopen.append (htcp.leads.frame _)).append hclose
    · exact htcp
  · cases ht

theorem begins_convertUptime {target : Target} (ht : convertUptime? target inv = some text) :
    Begins text .firm := by
  unfold convertUptime? at ht
  split at ht
  · cases ht
    refine h.begins_finish ?_
    have hinfo : Leads .start systemInfo .firm := leads_literal rfl (by decide)
    split
    · exact begins_literal rfl (by decide)
    · have hopen : Begins "(" (Point.start.under ⟨1, 0⟩) := begins_literal rfl (by decide)
      exact (hopen.append (hinfo.frame _)).literal rfl (by decide)
    · exact begins_literal rfl (by decide)
    · have hopen : Begins "(Get-Date) - (" (Point.start.under ⟨1, 0⟩) :=
        begins_literal rfl (by decide)
      exact (hopen.append (hinfo.frame _)).literal rfl (by decide)
  · cases ht

theorem begins_convertWhoami (ht : convertWhoami? inv = some text) : Begins text .firm := by
  unfold convertWhoami? at ht
  split at ht
  · cases ht
    exact h.begins_finish (begins_literal rfl (by decide))
  · cases ht

theorem begins_convertSleep (ht : convertSleep? inv = some text) : Begins text .firm := by
  unfold convertSleep? at ht
  dsimp only at ht
  split at ht
  · cases ht
  · obtain ⟨total, -, rfl⟩ := Option.map_eq_some_iff.mp ht
    refine h.begins_finish ?_
    split
    · exact ((begins_literal rfl (by decide)).append (leads_ofNat _)).firm
    · exact ((begins_literal rfl (by decide)).append (leads_ofNat _)).firm

end System

/-! ### The memory table -/

theorem leads_memoryUnit (inv : Invocation) : Leads .settled (memoryUnit inv) .settled := by
  unfold memoryUnit
  split <;> exact leads_literal rfl (by decide)

/-- A column, given the front of it with its name, which stands in quotes. -/
theorem leads_memoryColumn {divisor name kilobytes : Text}
    (hname : Leads .start ("@\x7bName='" ++ name ++ "'; Expression=") (Point.settled.under ⟨0, 1⟩))
    (hkilobytes : Leads .settled kilobytes .settled) (hdivisor : Leads .settled divisor .settled) :
    Leads .start (memoryColumn divisor name kilobytes) .firm := by
  have hopen : Leads .start "[math]::Round((" (Point.settled.under ⟨2, 0⟩) :=
    leads_literal rfl (by decide)
  have hunit : Leads (Point.settled.under ⟨2, 0⟩) ") * 1KB / " (Point.settled.under ⟨1, 0⟩) :=
    leads_literal rfl (by decide)
  have hround : Leads (Point.settled.under ⟨1, 0⟩) ", 2)" .resting :=
    leads_literal rfl (by decide)
  have hblock := leads_scriptBlock ((((hopen.append (hkilobytes.frame _)).append hunit).append
    (hdivisor.frame _)).append hround)
  have hclose : Leads (Point.settled.under ⟨0, 1⟩) "\x7d" .firm :=
    leads_literal rfl (by decide)
  exact (hname.append (hblock.frame _)).append hclose

theorem begins_convertFree (h : inv.SelfContained) (ht : convertFree? inv = some text) :
    Begins text .firm := by
  unfold convertFree? at ht
  split at ht
  · cases ht
    have hunit := leads_memoryUnit inv
    have hinfo : Begins systemInfo .firm := begins_literal rfl (by decide)
    refine h.begins_finish ((hinfo.literal rfl (by decide)).append
      (leads_join rfl leads_comma.firm fun t ht => ?_))
    simp only [List.mem_cons, List.not_mem_nil, or_false] at ht
    rcases ht with rfl | rfl | rfl <;>
      exact leads_memoryColumn (leads_literals rfl rfl rfl (by decide))
        (leads_literal rfl (by decide)) hunit
  · cases ht

/-! ### Queries -/

/-- What a query writes bare is self-contained. -/
structure DnsQuery.SelfContained (q : DnsQuery) : Prop where
  name : ∀ t ∈ q.name, CrossShell.SelfContained t
  record : ∀ t ∈ q.record, CrossShell.SelfContained t
  server : ∀ t ∈ q.server, CrossShell.SelfContained t

theorem DnsQuery.SelfContained.addWord {q q' : DnsQuery} (hq : q.SelfContained) {word : Text}
    (hword : CrossShell.SelfContained word)
    (hserver : ∀ t ∈ Text.dropFront? word "@", CrossShell.SelfContained t)
    (h : q.addWord? word = some q') : q'.SelfContained := by
  have hrecords : ∀ t ∈ recordTypes, CrossShell.SelfContained t := by decide +kernel
  have hnew : ∀ {t : Text}, CrossShell.SelfContained t →
      ∀ u ∈ some t, CrossShell.SelfContained u := by
    rintro t ht u ⟨⟩
    exact ht
  unfold addWord? at h
  split at h
  · rename_i address haddress
    cases h
    exact { hq with server := hnew (hserver address haddress) }
  split at h
  · cases h
    exact { hq with }
  split at h
  · cases h
    exact hq
  split at h
  · cases h
    exact { hq with name := hnew hword }
  split at h
  · rename_i hrecord
    cases h
    exact { hq with record := hnew (hrecords _ (List.contains_iff_mem.mp hrecord)) }
  · cases h

theorem DnsQuery.SelfContained.foldlM {words : List Text} {q q' : DnsQuery} (hq : q.SelfContained)
    (hwords : ∀ w ∈ words, CrossShell.SelfContained w)
    (hservers : ∀ w ∈ words, ∀ t ∈ Text.dropFront? w "@", CrossShell.SelfContained t)
    (h : words.foldlM DnsQuery.addWord? q = some q') : q'.SelfContained := by
  induction words generalizing q with
  | nil =>
    cases h
    exact hq
  | cons w ws ih =>
    rw [List.foldlM_cons] at h
    obtain ⟨q₁, hq₁, h⟩ := Option.bind_eq_some_iff.mp h
    exact ih (hq.addWord (hwords w List.mem_cons_self) (hservers w List.mem_cons_self) hq₁)
      (fun v hv => hwords v (List.mem_cons_of_mem _ hv))
      (fun v hv => hservers v (List.mem_cons_of_mem _ hv)) h

theorem leads_switchValue {switch : String} {t : Text} (hs : switch = String.ofList t)
    (hc : checks .firm t .start = true) {value : Option Text}
    (h : ∀ v ∈ value, SelfContained v) : Leads .firm (switchValue switch value) .firm := by
  cases value with
  | none => exact leads_nil _
  | some v => exact (leads_literal hs hc).append (h v rfl).leads

theorem begins_convertDig (h : inv.SelfContained)
    (hservers : ∀ w ∈ inv.positionals [], ∀ t ∈ Text.dropFront? w "@", SelfContained t)
    (ht : convertDig? inv = some text) : Begins text .firm := by
  obtain ⟨query, hquery, ht⟩ := Option.bind_eq_some_iff.mp ht
  obtain ⟨body, hbody, ht⟩ := Option.bind_eq_some_iff.mp ht
  cases ht
  have hempty : DnsQuery.SelfContained {} := ⟨by simp, by simp, by simp⟩
  have hq := hempty.foldlM (h.positionals []) hservers hquery
  obtain ⟨name, hname, rfl⟩ := Option.map_eq_some_iff.mp hbody
  have hfront : Begins "Resolve-DnsName -Name " .start := begins_literal rfl (by decide)
  refine h.begins_finish ((((hfront.append (hq.name name hname).leads).append
    (leads_switchValue rfl (by decide) hq.record)).append
      (leads_switchValue rfl (by decide) hq.server)).append ?_)
  exact (leads_literal rfl (by decide)).optional

/-! ## Variables -/

namespace Scan

variable {w : Bool} {m : ScanMode} {n : Nesting}

/-- The modes inside of double quotes. -/
def insideDouble (w : Bool) : List ScanMode := [.quote w .double, .quoteEscape w]

theorem quote_mem_insideDouble (w : Bool) : .quote w .double ∈ insideDouble w :=
  List.mem_cons_self

theorem step_insideDouble (hm : m ∈ insideDouble w) {c : Char} (hc : c ≠ '"') :
    ∃ m' ∈ insideDouble w, (Scan.mk m n).step c = ⟨m', n⟩ := by
  simp only [insideDouble, List.mem_cons, List.not_mem_nil, or_false] at hm
  rcases hm with rfl | rfl
  · rw [step_quote]
    split
    · exact ⟨_, by simp [insideDouble], rfl⟩
    · have hchar : c ≠ Quote.double.char := hc
      rw [if_neg hchar]
      exact ⟨_, by simp [insideDouble], rfl⟩
  · exact ⟨_, by simp [insideDouble], rfl⟩

theorem found_insideDouble (hm : m ∈ insideDouble w) {t : Text} (ht : '"' ∉ t) :
    (Scan.mk m n).found t = [] := by
  induction t generalizing m with
  | nil => rfl
  | cons c t ih =>
    rw [List.mem_cons, not_or] at ht
    obtain ⟨m', hm', hstep⟩ := step_insideDouble (n := n) hm (Ne.symm ht.1)
    have hfound : (Scan.mk m n).found? c = none := by
      simp only [insideDouble, List.mem_cons, List.not_mem_nil, or_false] at hm
      rcases hm with rfl | rfl <;> exact found?_of_mode (by simp) (by simp) c
    rw [found, hfound, hstep, ih hm' ht.2]
    rfl

/-- A text without quotes and backslashes leads back to where nothing is protected. -/
theorem after_insideDouble (hm : m ∈ insideDouble w) {c : Char} {t : Text}
    (h : ∀ d ∈ c :: t, d ≠ '"' ∧ d ≠ '\\') :
    (Scan.mk m n).after (c :: t) = ⟨.quote w .double, n⟩ := by
  have hstep : ∀ m ∈ insideDouble w, ∀ c, c ≠ '"' → c ≠ '\\' →
      (Scan.mk m n).step c = ⟨.quote w .double, n⟩ := by
    intro m hm c hquote hslash
    simp only [insideDouble, List.mem_cons, List.not_mem_nil, or_false] at hm
    rcases hm with rfl | rfl
    · rw [step_quote, if_neg (by simp [hslash])]
      exact if_neg hquote
    · rfl
  obtain ⟨hquote, hslash⟩ := h c List.mem_cons_self
  rw [after_cons, hstep m hm c hquote hslash]
  replace h := fun d hd => h d (List.mem_cons_of_mem _ hd)
  induction t with
  | nil => rfl
  | cons d t ih =>
    obtain ⟨hquote, hslash⟩ := h d List.mem_cons_self
    rw [after_cons, hstep _ (quote_mem_insideDouble w) d hquote hslash]
    exact ih fun e he => h e (List.mem_cons_of_mem _ he)

end Scan

theorem prefix_of_leadingName? {t name : Text} (h : leadingName? t = some name) :
    name <+: t ∧ ∀ c ∈ name, Text.isWordChar c = true := by
  cases t with
  | nil => cases h
  | cons c t =>
    rw [leadingName?] at h
    split at h
    · rename_i hc
      cases h
      refine ⟨List.cons_prefix_cons.mpr ⟨rfl, List.takeWhile_prefix _⟩, fun d hd => ?_⟩
      rcases List.mem_cons.mp hd with rfl | hd
      · exact isWordChar_of_isNameChar (isNameChar_of_isNameStart hc)
      · exact List.all_eq_true.mp List.all_takeWhile d hd
    · cases h

/-- The characters of a reference have no meaning inside of double quotes. -/
theorem envReference?_plain {t name : Text} {k : Nat} (h : envReference? t = some (name, k)) :
    (∀ c ∈ t.take k, c ≠ '"' ∧ c ≠ '\\') ∧ ∀ c ∈ name, c ≠ '"' ∧ c ≠ '\\' := by
  have hsigns : ∀ {t : Text}, (∀ c ∈ t, Text.isWordChar c = true) →
      ∀ c ∈ t, c ≠ '"' ∧ c ≠ '\\' := by
    intro t ht c hc
    exact ⟨fun he => notMem_of_isWordChar ht (c := '"') (by decide) (he ▸ hc),
      fun he => notMem_of_isWordChar ht (c := '\\') (by decide) (he ▸ hc)⟩
  unfold envReference? at h
  split at h
  · rename_i rest
    obtain ⟨name', hname, h⟩ := Option.bind_eq_some_iff.mp h
    split at h
    · rename_i hclose
      cases h
      obtain ⟨⟨u, rfl⟩, hword⟩ := prefix_of_leadingName? hname
      rw [List.drop_left] at hclose
      obtain ⟨v, rfl⟩ := List.head?_eq_some_iff.mp hclose
      refine ⟨fun c hc => ?_, hsigns hword⟩
      have htake : ('{' :: (name ++ '}' :: v)).take (name.length + 2) = '{' :: (name ++ ['}']) := by
        simp [List.take_append]
      rw [htake] at hc
      rcases List.mem_cons.mp hc with rfl | hc
      · decide
      · rcases List.mem_append.mp hc with hc | hc
        · exact hsigns hword c hc
        · rw [List.mem_singleton.mp hc]
          decide
    · cases h
  · obtain ⟨name', hname, h⟩ := Option.map_eq_some_iff.mp h
    cases h
    obtain ⟨⟨u, rfl⟩, hword⟩ := prefix_of_leadingName? hname
    rw [List.take_left]
    exact ⟨hsigns hword, hsigns hword⟩

/-- A reference and what is written for it lead to the same state. -/
theorem Scan.after_envReference {w : Bool} {m : ScanMode} {n : Nesting} (hm : m ∈ insideDouble w)
    {t name : Text} {k : Nat} (h : envReference? t = some (name, k)) :
    '"' ∉ envRead name ∧ (Scan.mk m n).after (envRead name) = ⟨.quote w .double, n⟩ ∧
      (Scan.mk m n).after ('$' :: t.take k) = ⟨.quote w .double, n⟩ := by
  obtain ⟨htaken, hname⟩ := envReference?_plain h
  have hread : ∀ d ∈ envRead name, d ≠ '"' ∧ d ≠ '\\' := by
    intro d hd
    simp only [envRead_eq, List.mem_cons, List.mem_append, List.not_mem_nil, or_false] at hd
    rcases hd with rfl | rfl | rfl | rfl | rfl | rfl | hd | rfl
    case inr.inr.inr.inr.inr.inr.inl => exact hname d hd
    all_goals decide
  refine ⟨fun hmem => (hread _ hmem).1 rfl, after_insideDouble hm hread, ?_⟩
  exact after_insideDouble hm (List.forall_mem_cons.mpr ⟨by decide, htaken⟩)

/-- References written out leave a reading inside of double quotes where it was. -/
theorem Scan.after_expandReferences {w : Bool} {m : ScanMode} {n : Nesting}
    (hm : m ∈ insideDouble w) {t : Text} (ht : '"' ∉ t) :
    '"' ∉ expandReferences 0 t ∧
      (Scan.mk m n).after (expandReferences 0 t) = (Scan.mk m n).after t := by
  induction hk : t.length using Nat.strongRecOn generalizing t m with
  | ind k ih =>
    cases t with
    | nil => exact ⟨by simp [expandReferences], rfl⟩
    | cons c t =>
      have hlength : t.length < k := by simp [← hk]
      rw [List.mem_cons, not_or] at ht
      obtain ⟨m', hm', hstep⟩ := step_insideDouble (n := n) hm (Ne.symm ht.1)
      have hkeep : '"' ∉ c :: expandReferences 0 t ∧
          (Scan.mk m n).after (c :: expandReferences 0 t) = (Scan.mk m n).after (c :: t) := by
        obtain ⟨hmem, hafter⟩ := ih t.length hlength hm' ht.2 rfl
        rw [after_cons, after_cons, hstep, hafter]
        exact ⟨by simp [ht.1, hmem], rfl⟩
      by_cases hc : c = '$'
      · subst hc
        cases href : envReference? t with
        | none =>
          rw [expandReferences, if_pos rfl, href]
          exact hkeep
        | some ref =>
          obtain ⟨name, j⟩ := ref
          obtain ⟨hread, hwritten, htaken⟩ := after_envReference (n := n) hm href
          have hrest : '"' ∉ t.drop j := fun h => ht.2 (List.mem_of_mem_drop h)
          have hshort : (t.drop j).length < k := by
            rw [List.length_drop]
            omega
          obtain ⟨hmem, hafter⟩ := ih _ hshort (quote_mem_insideDouble w) hrest rfl
          have hsplit : '$' :: t = ('$' :: t.take j) ++ t.drop j := by
            rw [List.cons_append, List.take_append_drop]
          rw [expandReferences_dollar href, hsplit, after_append, after_append, hwritten, htaken,
            hafter, List.mem_append, not_or]
          exact ⟨⟨hread, hmem⟩, rfl⟩
      · rw [expandReferences, if_neg hc]
        exact hkeep

/-- A value in double quotes reads the same with its references written out. -/
theorem leads_expanded {value : Text} (hquote : '"' ∉ value)
    (h : SelfContained ('"' :: (value ++ ['"']))) :
    Leads .start ('"' :: (expandReferences 0 value ++ ['"'])) .firm := by
  rintro outer ⟨m, n⟩ ⟨hlevel, rfl⟩
  cases m with
  | start =>
    obtain ⟨-, hafter⟩ := h.leads outer ⟨.start, outer + .top⟩ ⟨hlevel, rfl⟩
    have hinside := Scan.quote_mem_insideDouble false
    obtain ⟨hmem, hexpand⟩ := Scan.after_expandReferences (n := outer + .top) hinside hquote
    have hopen : (Scan.mk .start (outer + .top)).step '"' =
        ⟨.quote false .double, outer + .top⟩ := rfl
    rw [Scan.after_cons, hopen, Scan.after_append] at hafter
    have hfound :
        (Scan.mk .start (outer + .top)).found ('"' :: (expandReferences 0 value ++ ['"'])) = [] := by
      rw [Scan.found_cons_of_ne (by decide) (by decide), hopen, Scan.found_append,
        Scan.found_insideDouble hinside hmem, Scan.found_of_forall_ne (by decide)]
      rfl
    refine ⟨hfound, ?_⟩
    rw [← hexpand, ← Scan.after_append] at hafter
    exact hafter
  | _ => simp [ScanMode.level, Point.start] at hlevel

/-- The value of an assignment that is written in double quotes: it has a reference, and is not in
single quotes. -/
def quotedValue? (word : Text) : Option Text :=
  (Text.splitOnce '=' word).bind fun (_, raw) =>
    if raw.head? = some '\'' ∨ !(Text.unquote raw).contains '$' then none
    else some (Text.unquote raw)

/-- A value can be written in double quotes. -/
structure Quotable (value : Text) : Prop where
  quote : '"' ∉ value
  selfContained : SelfContained ('"' :: (value ++ ['"']))

instance (value : Text) : Decidable (Quotable value) :=
  decidable_of_iff ('"' ∉ value ∧ SelfContained ('"' :: (value ++ ['"'])))
    ⟨fun h => ⟨h.1, h.2⟩, fun h => ⟨h.quote, h.selfContained⟩⟩

theorem leads_envValue {raw value : Text}
    (h : ¬(raw.head? = some '\'' ∨ !(Text.unquote raw).contains '$') → Quotable (Text.unquote raw))
    (hv : envValue? raw = some value) : Leads .start value .firm := by
  unfold envValue? at hv
  dsimp only at hv
  split at hv
  · cases hv
    exact (leads_singleQuoted _).mono (by decide) rfl (by decide) rfl
  split at hv
  · cases hv
  · rename_i hdouble _
    cases hv
    obtain ⟨hquote, hself⟩ := h hdouble
    obtain ⟨hmem, -⟩ :=
      Scan.after_expandReferences (n := .top) (Scan.quote_mem_insideDouble false) hquote
    rw [replace_eq_ticked, ticked_of_notMem hmem]
    exact leads_expanded hquote hself

theorem leads_identifier {name : Text} (h : isIdentifier name = true) :
    Leads .settled name .settled :=
  leads_ordinary (by decide) (by decide) fun c hc =>
    isOrdinary_of (f := isNameChar) (by decide) (isNameChar_of_isIdentifier h c hc)

theorem begins_assignment {word : Text} (h : ∀ v ∈ quotedValue? word, Quotable v)
    (ht : assignment? word = some text) : Begins text .firm := by
  obtain ⟨⟨name, raw⟩, hsplit, ht⟩ := Option.bind_eq_some_iff.mp ht
  dsimp only at ht
  split at ht
  · rename_i hname
    obtain ⟨value, hvalue, ht⟩ := Option.bind_eq_some_iff.mp ht
    cases ht
    refine (((begins_literal rfl (by decide)).append (leads_identifier hname)).literal rfl
      (by decide)).append (leads_envValue (fun hdouble => h _ ?_) hvalue)
    rw [quotedValue?, hsplit]
    exact if_neg hdouble
  · cases ht

section Environment

variable (h : inv.SelfContained)
include h

theorem begins_convertExport
    (hvalues : ∀ w ∈ inv.positionals [], ∀ v ∈ quotedValue? w, Quotable v)
    (ht : convertExport? inv = some text) : Begins text .firm := by
  unfold convertExport? at ht
  split at ht
  · split at ht
    · cases ht
      exact h.begins_finish (begins_literal rfl (by decide))
    · cases ht
  split at ht
  · cases ht
  · rename_i hwords
    obtain ⟨statements, hstatements, ht⟩ := Option.bind_eq_some_iff.mp ht
    cases ht
    refine h.begins_finish (begins_statements (mapM_ne_nil hstatements (by simpa using hwords))
      fun t ht => ?_)
    obtain ⟨w, hw, hassign⟩ := exists_of_mem_mapM hstatements t ht
    exact begins_assignment (hvalues w hw) hassign

theorem begins_convertUnset (ht : convertUnset? inv = some text) : Begins text .firm := by
  unfold convertUnset? at ht
  dsimp only at ht
  split at ht
  · cases ht
  · rename_i hnames
    cases ht
    have hfront : Begins "Remove-Item Env:" .settled := begins_literal rfl (by decide)
    simp only [Bool.or_eq_true, List.isEmpty_iff, Bool.not_eq_true', not_or, Bool.not_eq_false,
      List.all_eq_true] at hnames
    refine h.begins_finish (begins_statements (by simpa using hnames.1) fun t ht => ?_)
    obtain ⟨v, hv, rfl⟩ := List.mem_map.mp ht
    exact (hfront.append (leads_identifier (hnames.2 v hv))).literal rfl (by decide)

end Environment

end CrossShell
