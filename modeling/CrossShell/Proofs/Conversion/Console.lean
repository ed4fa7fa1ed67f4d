import CrossShell.Proofs.Conversion.Report
import CrossShell.Proofs.Text.Literal

/-!
# A line as one argument of the console

The console takes a line as a quoted argument of a call of PowerShell. It knows no way to protect a
quote: each quote takes it from outside of quotes to inside or back, and outside `|` and `&` are its
own operators. So a quote of the line is written twice, which leaves the argument and enters it again
at once.

* `Text.undouble_double`: taking pairs of quotes for one quote gives back the line.
* `Text.count_double`: the quotes of a part of the line are an even number of quotes in the argument.
* `Text.even_of_double_eq`: so is what stands in the argument in front of any other character.
* `Converter.console_line_quoted`: what this means for the calls that lines are converted to.
-/

namespace CrossShell

namespace Text

variable {q : Char}

theorem double_append (q : Char) (s t : Text) : double q (s ++ t) = double q s ++ double q t :=
  List.flatMap_append

theorem undouble_double (q : Char) (t : Text) : replace [q, q] [q] (double q t) = t := by
  unfold replace
  induction t with
  | nil => rfl
  | cons c t ih =>
    rw [double_cons]
    by_cases hc : c = q
    · subst hc
      simp [replaceFrom, ih]
    · simp [replaceFrom, hc, Ne.symm hc, ih]

theorem count_double (q : Char) (t : Text) : (double q t).count q = 2 * t.count q := by
  induction t with
  | nil => rfl
  | cons c t ih =>
    rw [double_cons, List.count_append, ih, List.count_cons]
    by_cases hc : c = q
    · simp [hc]
      omega
    · simp [hc]

/-- Up to a last `q`, an even number of `q` stands in front of each other character. -/
theorem even_of_double_eq {t front back : Text} {c : Char}
    (h : double q t ++ [q] = front ++ c :: back) (hc : c ≠ q) : front.count q % 2 = 0 := by
  induction t generalizing front with
  | nil =>
    match front with
    | [] => exact absurd (List.cons.inj h).1.symm hc
    | e :: front => simp [double] at h
  | cons d t ih =>
    rw [double_cons] at h
    by_cases hd : d = q
    · subst hd
      rw [if_pos rfl] at h
      -- The character stands behind the pair.
      match front with
      | [] => exact absurd (List.cons.inj h).1.symm hc
      | [e] => exact absurd (List.cons.inj (List.cons.inj h).2).1.symm hc
      | e :: f :: front =>
        simp only [List.cons_append, List.nil_append, List.cons.injEq] at h
        obtain ⟨rfl, rfl, hrest⟩ := h
        have := ih hrest
        simp only [List.count_cons_self]
        omega
    · rw [if_neg hd] at h
      match front with
      | [] => rfl
      | e :: front =>
        obtain ⟨rfl, hrest⟩ := List.cons.inj h
        rw [List.count_cons_of_ne hd]
        exact ih hrest

end Text

namespace Converter

/-- The call of PowerShell in front of the argument. -/
def consoleOpening (target : Target) : Text := target.executable ++ " -NoProfile -Command "

theorem quote_notMem_consoleOpening (target : Target) : '"' ∉ consoleOpening target := by
  have hpwsh : '"' ∉ ("pwsh".toList ++ " -NoProfile -Command ".toList) := by decide
  have hpowershell : '"' ∉ ("powershell".toList ++ " -NoProfile -Command ".toList) := by decide
  unfold consoleOpening Target.executable
  split
  · exact hpwsh
  · exact hpowershell

/-- A line is wrapped in a quoted argument, with its quotes written twice. -/
theorem wrapForConsole_eq (target : Target) (line : Text) : wrapForConsole target line =
    consoleOpening target ++ '"' :: (Text.double '"' line ++ ['"']) := by
  have hwrap : wrapForConsole target line =
      target.executable ++ " -NoProfile -Command \"" ++ Text.replace ['"'] ['"', '"'] line ++
        ['"'] := rfl
  have hopening : " -NoProfile -Command \"".toList = " -NoProfile -Command ".toList ++ ['"'] := by
    decide
  rw [hwrap, hopening, Text.replace_eq_double, consoleOpening]
  simp only [List.append_assoc, List.cons_append, List.nil_append]

/-- In the call, the console is inside of quotes at the characters of the line, and outside of quotes
at those of the opening. -/
theorem odd_count_iff {target : Target} {line front back : Text} {c : Char}
    (h : wrapForConsole target line = front ++ c :: back) (hc : c ≠ '"') :
    front.count '"' % 2 = 1 ↔ (consoleOpening target).length < front.length := by
  have hopening := List.count_eq_zero.mpr (quote_notMem_consoleOpening target)
  rw [wrapForConsole_eq] at h
  rcases List.append_eq_append_iff.mp h with ⟨rest, rfl, hrest⟩ | ⟨rest, hfront, -⟩
  · -- Behind the opening stands the quote, then the argument.
    match rest with
    | [] => exact absurd (List.cons.inj hrest).1.symm hc
    | e :: rest =>
      obtain ⟨rfl, hinner⟩ := List.cons.inj hrest
      have heven := Text.even_of_double_eq hinner hc
      rw [List.count_append, List.count_cons_self, hopening, List.length_append, List.length_cons]
      omega
  · rw [hfront, List.count_append] at hopening
    rw [hfront, List.length_append]
    omega

variable {t : Converter}

/-- A converted line is what the target takes for the rebuilt line. -/
theorem line_of_converted {command : Text} (h : (t.convertLine command).converted = true) :
    (t.convertLine command).line =
      wrap t.target (emulate t.target (t.rebuild (Text.trim command))) := by
  cases henabled : t.enabled with
  | false => simp [convertLine, henabled, Conversion.unchanged] at h
  | true =>
    cases hneeds : t.target.needsConversion with
    | false => simp [convertLine, henabled, hneeds, Conversion.unchanged] at h
    | true =>
      rw [convertLine_eq henabled hneeds] at h ⊢
      by_cases hacts : t.Acts (Text.trim command)
      · rw [if_pos hacts]
      · rw [if_neg hacts] at h
        cases h

/-- **The console sees nothing of a line outside of quotes.** A line that is converted for the console
is called as one quoted argument, from which it is got back by taking two quotes for one. In front of
each of its characters, quotes apart, stands an odd number of quotes, so that the console, which
changes sides at each quote, is inside; and it is outside only in front of the argument. -/
theorem console_line_quoted (hkind : t.target.kind = .console) (command : Text)
    (hconverted : (t.convertLine command).converted = true) :
    let line := emulate t.target (t.rebuild (Text.trim command))
    let call := (t.convertLine command).line
    let opening := consoleOpening t.target
    ∃ inner, call = opening ++ '"' :: (inner ++ ['"']) ∧
      Text.replace "\"\"" "\"" inner = line ∧
      (∀ before c after, line = before ++ c :: after → c ≠ '"' →
        ∃ front back, inner = front ++ c :: back ∧ Text.replace "\"\"" "\"" front = before ∧
          (opening ++ '"' :: front).count '"' % 2 = 1) ∧
      ∀ front c back, call = front ++ c :: back → c ≠ '"' →
        (front.count '"' % 2 = 1 ↔ opening.length < front.length) := by
  intro line call opening
  have hcall : call = wrapForConsole t.target line :=
    (line_of_converted hconverted).trans (if_pos hkind)
  refine ⟨Text.double '"' line, hcall.trans (wrapForConsole_eq _ _), Text.undouble_double '"' line,
    ?_, fun front c back h hc => odd_count_iff (hcall.symm.trans h) hc⟩
  intro before c after hline hc
  refine ⟨Text.double '"' before, Text.double '"' after, ?_, Text.undouble_double '"' before, ?_⟩
  · rw [hline, Text.double_append, Text.double_cons, if_neg hc]
    rfl
  · rw [List.count_append, List.count_eq_zero.mpr (quote_notMem_consoleOpening t.target),
      List.count_cons_self, Text.count_double]
    omega

end Converter

/-- A line with pairs of quotes, a protected quote and one that is not closed, and operators of the
console inside and outside of them. -/
def quotesLine : Text := "a \"x|y\" | tac \"b|\"\"\" && c \"& \\\"d\" \""

theorem console_line_quoted_quotesLine :
    silentConverter.target.kind = .console ∧
      (silentConverter.convertLine quotesLine).converted = true ∧
      (silentConverter.convertLine quotesLine).line =
        ("powershell -NoProfile -Command \"a \"\"x|y\"\" | Get-Reversed \"\"b|\"\" \"\"\"\"; " ++
          "$cmdxOk = $?; if ($cmdxOk) \x7b c \"\"& \\\"\"d\"\" \"\" \x7d\"").toList ∧
      (∃ inner, (silentConverter.convertLine quotesLine).line =
          Converter.consoleOpening .console ++ '"' :: (inner ++ ['"']) ∧
        Text.replace "\"\"" "\"" inner =
          ("a \"x|y\" | Get-Reversed \"b|\" \"\"; $cmdxOk = $?; " ++
            "if ($cmdxOk) \x7b c \"& \\\"d\" \" \x7d").toList) ∧
      ∀ front c back, (silentConverter.convertLine quotesLine).line = front ++ c :: back →
        c ≠ '"' → (front.count '"' % 2 = 1 ↔ 31 < front.length) := by
  have hconverted : (silentConverter.convertLine quotesLine).converted = true := by decide +kernel
  obtain ⟨inner, hcall, hinner, -, hsides⟩ := Converter.console_line_quoted rfl quotesLine hconverted
  refine ⟨rfl, hconverted, by decide +kernel, ⟨inner, hcall, hinner.trans ?_⟩, hsides⟩
  decide +kernel

end CrossShell
