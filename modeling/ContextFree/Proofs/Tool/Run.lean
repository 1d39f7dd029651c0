import ContextFree.Proofs.Unger.Normal
import ContextFree.Proofs.Text.Utf8
import ContextFree.Proofs.Tool.Options
import ContextFree.Tool.Run

/-!
# What a run depends on

The exit code of a run is decided by the file and by whether the parsing method finds a tree, and
by nothing else. Asking for more to be shown puts text in front of what is shown anyway; asking for
more of the journal adds lines to it.
-/

namespace ContextFree

namespace Journal

/-- The characters of a text between the line breaks. -/
def linesOf (text : String) : List (List Char) :=
  text.toList.splitOn '\n'

theorem text_cons (verbosity : Nat) (entry : Entry) (entries : List Entry) :
    text verbosity (entry :: entries) =
      (if entry.level.threshold ≤ verbosity then entry.line else "") ++ text verbosity entries := by
  by_cases h : entry.level.threshold ≤ verbosity <;> simp [text, h]

theorem exists_linesOf_line_append (entry : Entry) :
    ∃ lines, ∀ rest, linesOf (entry.line ++ rest) = lines ++ linesOf rest := by
  refine ⟨linesOf (entry.level.name ++ " - " ++ entry.message), fun rest => ?_⟩
  have hline : (entry.line ++ rest).toList =
      (entry.level.name ++ " - " ++ entry.message).toList ++ '\n' :: rest.toList := by
    simp [Entry.line]
  rw [linesOf, hline, List.splitOn_append_cons_self]
  rfl

/-- Who asks for more detail sees the same lines with others in between. -/
theorem sublist_linesOf_text {verbosity verbosity' : Nat} (h : verbosity ≤ verbosity')
    (entries : List Entry) :
    (linesOf (text verbosity entries)).Sublist (linesOf (text verbosity' entries)) := by
  induction entries with
  | nil => exact .refl _
  | cons entry entries ih =>
    obtain ⟨lines, hlines⟩ := exists_linesOf_line_append entry
    rw [text_cons, text_cons]
    -- an entry that is shown is still shown when more detail is asked for
    by_cases hshown : entry.level.threshold ≤ verbosity
    · rw [if_pos hshown, if_pos (hshown.trans h), hlines, hlines]
      exact ih.append_left lines
    rw [if_neg hshown, String.empty_append]
    by_cases hshown' : entry.level.threshold ≤ verbosity'
    · rw [if_pos hshown', hlines]
      exact ih.trans (List.sublist_append_right lines _)
    · rwa [if_neg hshown', String.empty_append]

end Journal

namespace Tool

/-- The file is there and is the encoding of a source that describes the grammar. -/
def Holds (content? : Option (List UInt8)) (g : Grammar) : Prop :=
  ∃ source : String, content? = some source.toUTF8.data.toList ∧ Grammar.parse source = .ok g

theorem Holds.unique {content? : Option (List UInt8)} {g g' : Grammar} (h : Holds content? g)
    (h' : Holds content? g') : g' = g := by
  obtain ⟨source, rfl, hparse⟩ := h
  obtain ⟨source', hcontent, hparse'⟩ := h'
  have hdecode := Text.decode_eq_ok_iff.mpr (Option.some.inj hcontent)
  rw [Text.decode_eq_ok_iff.mpr rfl] at hdecode
  obtain rfl := Except.ok.inj hdecode
  exact Except.ok.inj (hparse'.symm.trans hparse)

section

variable {a : Arithmetic} {options : Options} {g : Grammar} {tokens : List Token}

/-- Whether the grammar has to be brought to normal form. -/
def Options.Normalizes (options : Options) : Prop :=
  options.method = .cyk ∨ options.showCnf

/-- The trees that a method finds. -/
def Method.trees (a : Arithmetic) : Method → Grammar → List Token → List Tree
  | .cyk, g, tokens => g.cykTrees a tokens
  | .unger emptyParts, g, tokens => g.ungerTrees emptyParts tokens

/-- The chart that a method fills. -/
def Method.chartText (a : Arithmetic) : Method → Grammar → List Token → String
  | .cyk, g, tokens => (Chart.ofTokens (g.toCnf a) tokens).text
  | .unger _, _, _ => ""

/-- The chart, if there is one and it is to be shown. -/
def Options.chartText (a : Arithmetic) (options : Options) (g : Grammar) (tokens : List Token) :
    String :=
  if options.showChart then options.method.chartText a g tokens else ""

theorem find?_eq_none_iff :
    find? a options g tokens = none ↔ options.Normalizes ∧ g.Overflows a := by
  unfold find? Options.Normalizes
  cases options.method with
  | cyk => simp [Grammar.toCnf?_eq_none_iff]
  | unger emptyParts => cases options.showCnf <;> simp [Grammar.toCnf?_eq_none_iff]

theorem of_find?_eq_some {finding : Finding} (h : find? a options g tokens = some finding) :
    finding.trees = options.method.trees a g tokens ∧
      finding.preamble = options.cnfText (g.toCnf a) ++ options.chartText a g tokens := by
  unfold find? at h
  unfold Options.chartText
  cases hmethod : options.method with
  | cyk =>
    rw [hmethod] at h
    obtain ⟨cnf, hcnf, rfl⟩ := Option.map_eq_some_iff.mp h
    obtain ⟨-, rfl⟩ := Grammar.toCnf?_eq_some_iff.mp hcnf
    exact ⟨rfl, rfl⟩
  | unger emptyParts =>
    simp only [hmethod] at h
    split at h
    · obtain ⟨cnf, hcnf, rfl⟩ := Option.map_eq_some_iff.mp h
      obtain ⟨-, rfl⟩ := Grammar.toCnf?_eq_some_iff.mp hcnf
      exact ⟨rfl, by simp [Method.chartText]⟩
    · next hshow =>
      obtain rfl := Option.some.inj h
      exact ⟨rfl, by simp [findByPartition, Options.cnfText, Method.chartText, hshow]⟩

end

namespace Command

variable {a : Arithmetic} {content? : Option (List UInt8)} {g : Grammar} {command : Command}
  {outcome : Outcome}

def tokens (command : Command) : List Token :=
  command.options.tokens command.input

theorem runOn?_eq_none_iff :
    command.runOn? a g = none ↔ command.options.Normalizes ∧ g.Overflows a := by
  rw [runOn?, Option.map_eq_none_iff, find?_eq_none_iff]

theorem of_runOn?_eq_some (h : command.runOn? a g = some outcome) :
    outcome.exitCode = (if command.options.method.trees a g command.tokens = [] then 1 else 0) ∧
    outcome.shown = command.options.cnfText (g.toCnf a) ++
      (command.options.chartText a g command.tokens ++
        treesText (command.options.method.trees a g command.tokens)) := by
  obtain ⟨finding, hfinding, rfl⟩ := Option.map_eq_some_iff.mp h
  obtain ⟨htrees, hpreamble⟩ := of_find?_eq_some hfinding
  simp only [htrees, hpreamble, List.isEmpty_iff, String.append_assoc]
  exact ⟨rfl, rfl⟩

theorem run?_of_holds (h : Holds content? g) : command.run? a content? = command.runOn? a g := by
  obtain ⟨source, rfl, hparse⟩ := h
  have hdecode := Text.decode_eq_ok_iff.mpr (rfl : source.toUTF8.data.toList = _)
  simp only [run?, hdecode, hparse]

theorem run?_of_not_holds (h : ¬∃ g, Holds content? g) (a : Arithmetic) (command : Command) :
    ∃ reason, command.run? a content? = some (.failure reason) := by
  unfold run?
  split
  · exact ⟨_, rfl⟩
  split
  · exact ⟨_, rfl⟩
  next content source hdecode =>
  split
  · exact ⟨_, rfl⟩
  · next g hparse =>
    exact absurd ⟨g, source, congrArg some (Text.decode_eq_ok_iff.mp hdecode), hparse⟩ h

theorem run?_eq_none_iff : command.run? a content? = none ↔
    command.options.Normalizes ∧ ∃ g, Holds content? g ∧ g.Overflows a := by
  by_cases h : ∃ g, Holds content? g
  · obtain ⟨g, hg⟩ := h
    have hunique : (∃ g, Holds content? g ∧ g.Overflows a) ↔ g.Overflows a :=
      ⟨fun ⟨_, hg', hover⟩ => hg.unique hg' ▸ hover, fun hover => ⟨g, hg, hover⟩⟩
    rw [run?_of_holds hg, runOn?_eq_none_iff, hunique]
  · obtain ⟨reason, hrun⟩ := run?_of_not_holds h a command
    rw [hrun]
    exact iff_of_false (by simp) fun hover => h (hover.2.imp fun _ => And.left)

/-- The file holds a grammar by which the chosen method finds a tree for the input. -/
def Succeeds (a : Arithmetic) (command : Command) (content? : Option (List UInt8)) : Prop :=
  ∃ g, Holds content? g ∧ command.options.method.trees a g command.tokens ≠ []

theorem exitCode_of_run?_eq_some (h : command.run? a content? = some outcome) :
    (outcome.exitCode = 0 ↔ command.Succeeds a content?) ∧
      (outcome.exitCode = 1 ↔ ¬command.Succeeds a content?) := by
  by_cases hholds : ∃ g, Holds content? g
  · obtain ⟨g, hg⟩ := hholds
    have hsucceeds : command.Succeeds a content? ↔
        command.options.method.trees a g command.tokens ≠ [] := by
      refine ⟨?_, fun htrees => ⟨g, hg, htrees⟩⟩
      rintro ⟨g', hg', htrees⟩
      exact hg.unique hg' ▸ htrees
    rw [run?_of_holds hg] at h
    rw [(of_runOn?_eq_some h).1, hsucceeds]
    split <;> simp_all
  · obtain ⟨reason, hrun⟩ := run?_of_not_holds hholds a command
    have hsucceeds : ¬command.Succeeds a content? := by
      rintro ⟨g, hg, -⟩
      exact hholds ⟨g, hg⟩
    obtain rfl := Option.some.inj (hrun.symm.trans h)
    simp [Outcome.failure, hsucceeds]

/-- The chart is made of the normal form at hand, so it is no reason to stop. -/
theorem exists_run?_set_table (h : command.run? a content? = some outcome) :
    ∃ outcome', (command.set .table).run? a content? = some outcome' := by
  refine Option.ne_none_iff_exists'.mp fun hnone => ?_
  have hover := run?_eq_none_iff.mp hnone
  have hstop : command.run? a content? = none := run?_eq_none_iff.mpr hover
  exact Option.some_ne_none _ (h.symm.trans hstop)

theorem exitCode_eq {command' : Command} {outcome' : Outcome}
    (hrun : command.run? a content? = some outcome)
    (hrun' : command'.run? a content? = some outcome')
    (h : command.Succeeds a content? ↔ command'.Succeeds a content?) :
    outcome'.exitCode = outcome.exitCode := by
  have hexit := exitCode_of_run?_eq_some hrun
  have hexit' := exitCode_of_run?_eq_some hrun'
  by_cases hsucceeds : command.Succeeds a content?
  · rw [hexit.1.mpr hsucceeds, hexit'.1.mpr (h.mp hsucceeds)]
  · rw [hexit.2.mpr hsucceeds, hexit'.2.mpr (mt h.mpr hsucceeds)]

/-- Whether the chart of the normal form is searched or all partitions are tried, some tree is found
for the same inputs, as long as words have enough bits for the masks of nullable items. -/
theorem succeeds_iff_of_methods {command' : Command} (hfits : ∀ g, Holds content? g → g.Fits a)
    (hmethod : command.options.method = .cyk)
    (hmethod' : command'.options.method = .unger .allowed)
    (htokens : command'.tokens = command.tokens) :
    command.Succeeds a content? ↔ command'.Succeeds a content? := by
  refine exists_congr fun g => and_congr_right fun hg => ?_
  have hcyk : g.cykTrees a command.tokens = g.cykTrees .unbounded command.tokens := by
    rw [Grammar.cykTrees, Grammar.cykTrees, (hfits g hg).toCnf_eq]
  rw [hmethod, hmethod', htokens, Method.trees, Method.trees, hcyk]
  exact Grammar.cykTrees_ne_nil_iff.trans Grammar.ungerTrees_allowed_ne_nil_iff.symm

theorem succeeds_set_iff (flag : Flag) :
    (command.set flag).Succeeds a content? ↔ command.Succeeds a content? := by
  cases flag <;> rfl

/-- The same command with the normal form and the chart shown or not. -/
def showing (command : Command) (showCnf showChart : Bool) : Command :=
  { command with
    options := { command.options with showCnf := showCnf, showChart := showChart } }

/-- What is shown is made of the text of the normal form, which only depends on the file, then that
of the chart, and then what is always shown. -/
theorem exists_shown_run? (a : Arithmetic) (content? : Option (List UInt8)) :
    ∃ cnf : String, ∀ command : Command,
      ∃ chart rest : String, (command.options.method ≠ .cyk → chart = "") ∧
        ∀ showCnf showChart outcome,
          (command.showing showCnf showChart).run? a content? = some outcome →
          outcome.shown =
            (if showCnf then cnf else "") ++ ((if showChart then chart else "") ++ rest) := by
  by_cases h : ∃ g, Holds content? g
  · obtain ⟨g, hg⟩ := h
    refine ⟨(g.toCnf a).text ++ "\n", fun command =>
      ⟨command.options.method.chartText a g command.tokens,
        treesText (command.options.method.trees a g command.tokens), fun hmethod => ?_, ?_⟩⟩
    · cases hcommand : command.options.method with
      | cyk => exact absurd hcommand hmethod
      | unger => rfl
    · intro showCnf showChart outcome hrun
      rw [run?_of_holds hg] at hrun
      exact (of_runOn?_eq_some hrun).2
  · refine ⟨"", fun command => ⟨"", "", fun _ => rfl, fun showCnf showChart outcome hrun => ?_⟩⟩
    obtain ⟨reason, hfailure⟩ := run?_of_not_holds h a (command.showing showCnf showChart)
    obtain rfl := Option.some.inj (hfailure.symm.trans hrun)
    cases showCnf <;> cases showChart <;> rfl

/-! ## Reports -/

section

variable {read? : List String → Option Command} {args : List String} {report : Report}

theorem report?_eq (h : read? args = some command) : report? a read? args content? =
    (command.run? a content?).map (Outcome.report command.options.verbosity) := by
  rw [report?, h, Option.map_eq_bind]
  rfl

theorem report?_eq_some_iff (h : read? args = some command) :
    report? a read? args content? = some report ↔ ∃ outcome,
      command.run? a content? = some outcome ∧
        outcome.report command.options.verbosity = report := by
  rw [report?_eq h, Option.map_eq_some_iff]

theorem exists_report?_of_holds (h : read? args = some command) (hg : Holds content? g)
    (hover : ¬g.Overflows a) : ∃ report, report? a read? args content? = some report ∧
      report.exitCode = (if command.options.method.trees a g command.tokens = [] then 1 else 0) ∧
      report.stdout = command.options.cnfText (g.toCnf a) ++
        (command.options.chartText a g command.tokens ++
          treesText (command.options.method.trees a g command.tokens)) := by
  have hruns : command.runOn? a g ≠ none := fun hnone => hover (runOn?_eq_none_iff.mp hnone).2
  obtain ⟨outcome, hrun⟩ := Option.ne_none_iff_exists'.mp hruns
  refine ⟨_, (report?_eq_some_iff h).mpr ⟨outcome, ?_, rfl⟩, of_runOn?_eq_some hrun⟩
  rw [run?_of_holds hg, hrun]

/-- To ask for more detail is to ask for nothing else. -/
theorem exists_read?_replicate (hread : TakesFlags read?) (h : read? args = some command)
    (n : Nat) : ∃ louder, read? (List.replicate n "-v" ++ args) = some louder ∧
      (∀ a content?, louder.run? a content? = command.run? a content?) ∧
      louder.options.verbosity = command.options.verbosity + n := by
  induction n with
  | zero => exact ⟨command, h, fun _ _ => rfl, rfl⟩
  | succ n ih =>
    obtain ⟨louder, hlouder, hrun, hverbosity⟩ := ih
    exact ⟨louder.set .verbose, hread .verbose _ _ hlouder trivial, hrun,
      congrArg (· + 1) hverbosity⟩

/-- Just the commands that normalize can be stopped, by an alternative with too many nullable items.
The exit code of any other run tells whether the file holds a grammar by which a tree is found, and
nothing is shown if it holds none. If no alternative has too many nullable items, then both methods
that find trees for all sentences have the same exit codes. Asking for more detail only adds lines
to the journal. Asking for more to be shown keeps the exit code. The text of the normal form, which
is the same for all methods and inputs, is shown before anything else, and the chart before anything
else but that. -/
theorem run_spec (a : Arithmetic) (hread : TakesFlags read?) (content? : Option (List UInt8)) :
    ∃ cnf : String, ∀ args command, read? args = some command →
      (report? a read? args content? = none ↔
        command.options.Normalizes ∧ ∃ g, Holds content? g ∧ g.Overflows a) ∧
      ∀ report, report? a read? args content? = some report →
        (report.exitCode = 0 ↔ command.Succeeds a content?) ∧
        (report.exitCode = 1 ↔ ¬command.Succeeds a content?) ∧
        ((¬∃ g, Holds content? g) → report.stdout = "") ∧
        ((∀ g, Holds content? g → g.Fits a) → command.options.method = .cyk →
          ∀ args' command' report', read? args' = some command' →
            command'.options.method = .unger .allowed → command'.tokens = command.tokens →
            report? a read? args' content? = some report' →
            report'.exitCode = report.exitCode) ∧
        (∀ n, ∃ louder, report? a read? (List.replicate n "-v" ++ args) content? = some louder ∧
          louder.exitCode = report.exitCode ∧ louder.stdout = report.stdout ∧
          (Journal.linesOf report.stderr).Sublist (Journal.linesOf louder.stderr)) ∧
        (command.options.showCnf = false →
          ∀ more, report? a read? ("--cnf" :: args) content? = some more →
            more.exitCode = report.exitCode ∧ more.stdout = cnf ++ report.stdout) ∧
        (command.options.showChart = false →
          ∃ more, report? a read? ("--table" :: args) content? = some more ∧
            more.exitCode = report.exitCode ∧
            (command.options.method ≠ .cyk ∨ command.options.showCnf = false →
              ∃ chart, more.stdout = chart ++ report.stdout) ∧
            (command.options.showCnf → ∃ chart rest, report.stdout = cnf ++ rest ∧
              more.stdout = cnf ++ (chart ++ rest))) := by
  obtain ⟨cnf, hcnf⟩ := exists_shown_run? a content?
  refine ⟨cnf, fun args command hargs => ⟨?_, fun report hreport => ?_⟩⟩
  · rw [report?_eq hargs, Option.map_eq_none_iff, run?_eq_none_iff]
  obtain ⟨outcome, hrun, rfl⟩ := (report?_eq_some_iff hargs).mp hreport
  obtain ⟨chart, rest, hchart, hshown⟩ := hcnf command
  have hsame : outcome.shown = (if command.options.showCnf then cnf else "") ++
      ((if command.options.showChart then chart else "") ++ rest) := hshown _ _ _ hrun
  refine ⟨(exitCode_of_run?_eq_some hrun).1, (exitCode_of_run?_eq_some hrun).2, fun h => ?_,
    fun hfits hmethod args' command' report' hargs' hmethod' htokens hreport' => ?_, fun n => ?_,
    fun hnew more hmore => ?_, fun hnew => ?_⟩
  · obtain ⟨reason, hfailure⟩ := run?_of_not_holds h a command
    obtain rfl := Option.some.inj (hfailure.symm.trans hrun)
    rfl
  · obtain ⟨outcome', hrun', rfl⟩ := (report?_eq_some_iff hargs').mp hreport'
    exact exitCode_eq hrun hrun' (succeeds_iff_of_methods hfits hmethod hmethod' htokens)
  · obtain ⟨louder, hlouder, hsame, hverbosity⟩ := exists_read?_replicate hread hargs n
    refine ⟨_, (report?_eq_some_iff hlouder).mpr ⟨outcome, (hsame _ _).trans hrun, rfl⟩, rfl, rfl,
      ?_⟩
    rw [hverbosity]
    exact Journal.sublist_linesOf_text (Nat.le_add_right _ n) _
  · have hflag := hread .cnf args command hargs hnew
    obtain ⟨outcome', hrun', rfl⟩ := (report?_eq_some_iff hflag).mp hmore
    refine ⟨exitCode_eq hrun hrun' (succeeds_set_iff .cnf).symm, ?_⟩
    have hmore : outcome'.shown =
        cnf ++ ((if command.options.showChart then chart else "") ++ rest) := hshown true _ _ hrun'
    simp only [Outcome.report, hmore, hsame, hnew, Bool.false_eq_true, if_false,
      String.empty_append]
  · have hflag := hread .table args command hargs hnew
    obtain ⟨outcome', hrun'⟩ := exists_run?_set_table hrun
    have hmore : outcome'.shown =
        (if command.options.showCnf then cnf else "") ++ (chart ++ rest) := hshown _ true _ hrun'
    rw [hnew, if_neg Bool.false_ne_true, String.empty_append] at hsame
    refine ⟨_, (report?_eq_some_iff hflag).mpr ⟨outcome', hrun', rfl⟩,
      exitCode_eq hrun hrun' (succeeds_set_iff .table).symm, fun h => ?_, fun h => ?_⟩
    · simp only [Outcome.report, hmore, hsame]
      rcases h with hmethod | hcnf
      · exact ⟨"", by rw [hchart hmethod, String.empty_append, String.empty_append]⟩
      · exact ⟨chart, by simp only [hcnf, Bool.false_eq_true, if_false, String.empty_append]⟩
    · exact ⟨chart, rest, by rw [Outcome.report, hsame, if_pos h],
        by rw [Outcome.report, hmore, if_pos h]⟩

/-! ## A grammar with a single word -/

def single : Grammar :=
  ⟨[⟨⟨"S"⟩, .terminal "a"⟩], by decide, by decide⟩

theorem holds_single : Holds (some "S -> a".toUTF8.data.toList) single :=
  ⟨"S -> a", rfl, Grammar.parse_eq_ok_iff.mpr ⟨single.rules, by decide +kernel, rfl⟩⟩

theorem not_overflows_single : ¬single.Overflows (.checked 64) :=
  Grammar.Fits.not_overflows (by decide)

theorem cykTrees_single :
    single.cykTrees (.checked 64) ["a"] = [.node ⟨"S"⟩ [.leaf "a"]] := by
  rw [Grammar.cykTrees, Cyk.parse_eq_plainParse]
  decide +kernel

/-- An option that must not be repeated may still be given once, and more detail any number of
times. -/
theorem run_spec_single :
    let content? := some "S -> a".toUTF8.data.toList
    let args := ["grammar.cfg", "a"]
    ofArgs? ("--cnf" :: "--cnf" :: args) = none ∧ ∃ cnf report more louder,
      report? (.checked 64) ofArgs? args content? = some report ∧ report.exitCode = 0 ∧
      report? (.checked 64) ofArgs? ("--cnf" :: args) content? = some more ∧
        more.exitCode = 0 ∧ more.stdout = cnf ++ report.stdout ∧
      report? (.checked 64) ofArgs? ("-v" :: "-v" :: args) content? = some louder ∧
        louder.exitCode = 0 ∧ louder.stdout = report.stdout := by
  intro content? args
  have hargs : ofArgs? args = some ⟨⟨.cyk, false, false, false, 0⟩, "grammar.cfg", "a"⟩ := by
    decide +kernel
  have hflag : ofArgs? ("--cnf" :: args) =
      some ⟨⟨.cyk, false, true, false, 0⟩, "grammar.cfg", "a"⟩ :=
    takesFlags_ofArgs? .cnf _ _ hargs rfl
  obtain ⟨report, hreport, -⟩ := exists_report?_of_holds hargs holds_single not_overflows_single
  obtain ⟨more, hmore, -⟩ := exists_report?_of_holds hflag holds_single not_overflows_single
  obtain ⟨cnf, hspec⟩ := run_spec (.checked 64) takesFlags_ofArgs? content?
  obtain ⟨hsucceeds, -, -, -, hverbose, hcnf, -⟩ := (hspec _ _ hargs).2 _ hreport
  have hfound : single.cykTrees (.checked 64) ["a"] ≠ [] :=
    cykTrees_single ▸ List.cons_ne_nil _ _
  have hexit : report.exitCode = 0 := hsucceeds.mpr ⟨single, holds_single, hfound⟩
  obtain ⟨louder, hlouder, hloud, hsame, -⟩ := hverbose 2
  obtain ⟨hkept, hshown⟩ := hcnf rfl _ hmore
  exact ⟨by decide +kernel, cnf, report, more, louder, hreport, hexit, hmore, hkept.trans hexit,
    hshown, hlouder, hloud.trans hexit, hsame⟩

/-! ## A grammar with a wide alternative -/

/-- As many nullable items as words have bits. -/
def wide : Grammar :=
  ⟨[⟨⟨"S"⟩, .seq (List.replicate 64 (.nonterminal ⟨"X"⟩))⟩, ⟨⟨"X"⟩, .alt [.terminal "a", .empty]⟩],
    by decide +kernel, by decide +kernel⟩

def wideSource : String :=
  "S ->" ++ String.join (List.replicate 64 " X") ++ "\nX -> a | ε"

theorem holds_wide : Holds (some wideSource.toUTF8.data.toList) wide :=
  ⟨wideSource, rfl, Grammar.parse_eq_ok_iff.mpr
    ⟨wide.rules, by decide +kernel, (eraseDups_eq_self wide.nodup).symm⟩⟩

/-- Only the copy with all of the items is made, and it has no sentence of a single token. -/
theorem cykTrees_wide : wide.cykTrees (.wrapping 64) ["a"] = [] := by
  rw [Grammar.cykTrees, Cyk.parse_eq_plainParse]
  decide +kernel

theorem generates_wide : wide.Generates ["a"] := by
  have hmem : ⟨⟨"X"⟩, .alt [.terminal "a", .empty]⟩ ∈ wide.rules := List.mem_of_getLast? rfl
  have hword : wide.Derives (.nonterminal ⟨"X"⟩) ["a"] :=
    .nonterminal hmem (.alt (by simp) (.terminal "a"))
  have hempty : wide.Derives (.nonterminal ⟨"X"⟩) [] := .nonterminal hmem (.alt (by simp) .empty)
  have hrest (n : Nat) : wide.Derives (.seq (List.replicate n (.nonterminal ⟨"X"⟩))) [] := by
    induction n with
    | zero => exact .nil
    | succ n ih => exact .cons hempty ih
  have hrhs : wide.Derives (.seq (List.replicate 64 (.nonterminal ⟨"X"⟩))) ["a"] :=
    .cons hword (hrest 63)
  have hstart : ⟨⟨"S"⟩, .seq (List.replicate 64 (.nonterminal ⟨"X"⟩))⟩ ∈ wide.rules :=
    List.mem_cons_self
  exact ⟨⟨"S"⟩, rfl, .nonterminal hstart hrhs⟩

/-- The chart comes after the normal form, so it does not come first if both are shown. And with too
many nullable items in an alternative one method fails where the other does not. -/
theorem not_suffix_and_exitCode_ne :
    (∃ report more,
      report? (.checked 64) ofArgs? ["--cnf", "grammar.cfg", "a"]
        (some "S -> a".toUTF8.data.toList) = some report ∧
      report? (.checked 64) ofArgs? ["--table", "--cnf", "grammar.cfg", "a"]
        (some "S -> a".toUTF8.data.toList) = some more ∧
      ¬∃ text, more.stdout = text ++ report.stdout) ∧
    ∃ cyk unger,
      report? (.wrapping 64) ofArgs? ["-p", "cyk", "grammar.cfg", "a"]
        (some wideSource.toUTF8.data.toList) = some cyk ∧
      report? (.wrapping 64) ofArgs? ["-p", "unger-empty", "grammar.cfg", "a"]
        (some wideSource.toUTF8.data.toList) = some unger ∧
      cyk.exitCode = 1 ∧ unger.exitCode = 0 := by
  constructor
  · have hargs : ofArgs? ["--cnf", "grammar.cfg", "a"] =
        some ⟨⟨.cyk, false, true, false, 0⟩, "grammar.cfg", "a"⟩ := by decide +kernel
    have hflag : ofArgs? ["--table", "--cnf", "grammar.cfg", "a"] =
        some ⟨⟨.cyk, false, true, true, 0⟩, "grammar.cfg", "a"⟩ :=
      takesFlags_ofArgs? .table _ _ hargs rfl
    have htokens (showChart : Bool) :
        tokens ⟨⟨.cyk, false, true, showChart, 0⟩, "grammar.cfg", "a"⟩ = ["a"] := by
      cases showChart <;> decide +kernel
    obtain ⟨report, hreport, -, hshown⟩ :=
      exists_report?_of_holds hargs holds_single not_overflows_single
    obtain ⟨more, hmore, -, hshown'⟩ :=
      exists_report?_of_holds hflag holds_single not_overflows_single
    refine ⟨report, more, hreport, hmore, ?_⟩
    rw [htokens, Method.trees, cykTrees_single] at hshown hshown'
    rw [hshown, hshown']
    rintro ⟨text, htext⟩
    have hsuffix : _ <:+ _ :=
      ⟨text.toList, ((congrArg String.toList htext).trans String.toList_append).symm⟩
    exact absurd hsuffix (by decide +kernel)
  · have hargs : ofArgs? ["-p", "cyk", "grammar.cfg", "a"] =
        some ⟨⟨.cyk, false, false, false, 0⟩, "grammar.cfg", "a"⟩ := by decide +kernel
    have hargs' : ofArgs? ["-p", "unger-empty", "grammar.cfg", "a"] =
        some ⟨⟨.unger .allowed, false, false, false, 0⟩, "grammar.cfg", "a"⟩ := by decide +kernel
    have hover : ¬wide.Overflows (.wrapping 64) := And.left
    obtain ⟨cyk, hcyk, hexit, -⟩ := exists_report?_of_holds hargs holds_wide hover
    obtain ⟨unger, hunger, hexit', -⟩ := exists_report?_of_holds hargs' holds_wide hover
    refine ⟨cyk, unger, hcyk, hunger, ?_, ?_⟩
    · rw [hexit, if_pos]
      exact cykTrees_wide
    · rw [hexit', if_neg]
      exact Grammar.ungerTrees_allowed_ne_nil_iff.mpr generates_wide

end

end Command

end Tool

end ContextFree
