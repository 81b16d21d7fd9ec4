/-
How a run of the command line ends, and what it leaves behind.

A run has seven endings, one for each stage at which it can fail and two for success (`Invocation.Ends`). Each says
what has come out of the stages before, so whatever is asked about a run is asked about seven cases, and the order
of the stages is looked at once (`Invocation.ends_run`). Only the last ending changes a file.

So a run either succeeds, or it leaves everything as it was (`runArguments_all_or_nothing`). What success takes is
said without the run: the input file yields a product (`Invocation.Yields`), and the product can be put where it
belongs (`Invocation.Succeeds`). The product depends neither on the output file nor on whether there is one, and
that is why a run to a file leaves there what a run to the standard output would have printed, even if the file is
the one that was read.

All this is said of file trees in which there may be files that cannot be read and places where none can be written.
These are two of the ways in which a run fails, and what they leave behind is no different from the other ways.
-/
import Mathlib.Tactic.Common
import UtteranceGrammar.Command.Help
import UtteranceGrammar.Proofs.Command.Files

set_option autoImplicit false

namespace UtteranceGrammar

namespace Invocation

variable {i : Invocation} {t t' : FileTree} {outcome : Outcome} {product : String}

/-! ## What success takes -/

/-- The input file is there and holds the UTF-8 of a grammar, something can be generated from the grammar, and the
product is what the task makes of that. -/
def Yields (i : Invocation) (t : FileTree) (product : String) : Prop :=
  t.isFile i.file = true ∧ ∃ content source g expansion, t.read i.file = .ok content ∧
    String.fromUTF8? content = some source ∧ Grammar.parse source.toList = .ok g ∧
    (Grammar.generate g).outcome = .ok expansion ∧ String.ofList (i.render expansion) = product

/-- The input file yields a product. If that is to be written to a file, nothing is there yet or it may be written
over, and the file can be written. -/
def Succeeds (i : Invocation) (t : FileTree) : Prop :=
  ∃ product, i.Yields t product ∧ ∀ path, i.out = some path →
    (t.occupied path = false ∨ i.force = true) ∧ ∃ t', t.write path product.toUTF8 = .ok t'

/-- A file's content is made into a product if it is the UTF-8 of a grammar and something can be generated. -/
theorem produce_eq_ok_iff {content : ByteArray} : (i.produce content).2 = .ok product ↔
    ∃ source g expansion, String.fromUTF8? content = some source ∧
      Grammar.parse source.toList = .ok g ∧ (Grammar.generate g).outcome = .ok expansion ∧
      String.ofList (i.render expansion) = product := by
  unfold produce
  cases hutf : String.fromUTF8? content with
  | none => simp
  | some source =>
    cases hparse : Grammar.parse source.toList with
    | error e => simp [hparse]
    | ok g =>
      cases hgenerate : (Grammar.generate g).outcome with
      | error e => simp [hparse, hgenerate]
      | ok expansion => simp [hparse, hgenerate]

/-- The same, with what is made of the content left to `produce`. This is the form that a run meets. -/
theorem yields_iff : i.Yields t product ↔ t.isFile i.file = true ∧
    ∃ content, t.read i.file = .ok content ∧ (i.produce content).2 = .ok product := by
  simp only [Yields, produce_eq_ok_iff, exists_and_left]

/-- An input file yields one product at most. -/
theorem Yields.unique {product' : String} (h : i.Yields t product) (h' : i.Yields t product') :
    product' = product := by
  obtain ⟨-, content, hread, hproduct⟩ := yields_iff.1 h
  obtain ⟨-, content', hread', hproduct'⟩ := yields_iff.1 h'
  obtain rfl := Except.ok.inj (hread.symm.trans hread')
  exact Except.ok.inj (hproduct'.symm.trans hproduct)

/-- A command that succeeds has an input file that can be read, and its output goes where a file can be written. -/
theorem Succeeds.permitted (h : i.Succeeds t) :
    (∃ place content, t.find i.file = .ok (.file place content) ∧ t.unreadable.lookup place = none) ∧
      ∀ path, i.out = some path → ∃ found place, t.find path = .ok found ∧ found.place? = some place ∧
        t.unwritable.lookup place = none := by
  obtain ⟨product, hyields, hout⟩ := h
  obtain ⟨-, content, hread, -⟩ := yields_iff.1 hyields
  obtain ⟨place, hfound, hreason⟩ := FileTree.read_eq_ok_iff.1 hread
  refine ⟨⟨place, content, hfound, hreason⟩, fun path hpath => ?_⟩
  obtain ⟨-, t', hwrite⟩ := hout path hpath
  exact FileTree.writable_of_write hwrite

/-! ## The endings -/

/-- The ways in which a run can end: what has come out of its stages, the outcome, and the files it leaves. -/
inductive Ends (i : Invocation) (t : FileTree) : Outcome → FileTree → Prop where
  | missing (h : t.isFile i.file = false) : Ends i t (.failure [] (.inputMissing i.file)) t
  | unreadable {e : StoreError} (h : t.read i.file = .error e) : Ends i t (.failure [] (.store e)) t
  | rejected {content : ByteArray} {log : List Event} {e : RunError} (hread : t.read i.file = .ok content)
      (h : i.produce content = (log, .error e)) : Ends i t (.failure log e) t
  | printed {log : List Event} {product : String} (h : i.Yields t product) (hout : i.out = none) :
      Ends i t ⟨0, product, log⟩ t
  | kept {log : List Event} {product path : String} (h : i.Yields t product) (hout : i.out = some path)
      (hthere : t.occupied path = true) (hforce : i.force = false) :
      Ends i t (.failure log (.outputExists path)) t
  | unwritten {log : List Event} {product path : String} {e : StoreError} (h : i.Yields t product)
      (hout : i.out = some path) (hwrite : t.write path product.toUTF8 = .error e) :
      Ends i t (.failure log (.store e)) t
  | written {log : List Event} {product path : String} {t' : FileTree} (h : i.Yields t product)
      (hout : i.out = some path) (hfree : t.occupied path = false ∨ i.force = true)
      (hwrite : t.write path product.toUTF8 = .ok t') : Ends i t ⟨0, "", log⟩ t'

/-- With a product at hand a run ends in one of the last four ways, whatever has been logged before. -/
theorem ends_deliver (h : i.Yields t product) (log : List Event) :
    ∃ outcome t', (i.deliver log product : StateM FileTree Outcome).run t = (outcome, t') ∧
      i.Ends t outcome t' := by
  unfold deliver
  cases hout : i.out with
  | none => exact ⟨_, _, rfl, .printed h hout⟩
  | some path =>
    show ∃ outcome t', (Store.occupied path >>= _ : StateM FileTree Outcome).run t = (outcome, t') ∧ _
    rw [FileTree.run_bind_of (FileTree.run_occupied t path)]
    by_cases hkept : (t.occupied path && !i.force) = true
    · rw [if_pos hkept]
      obtain ⟨hthere, hforce⟩ : t.occupied path = true ∧ i.force = false := by simpa using hkept
      exact ⟨_, _, rfl, .kept h hout hthere hforce⟩
    · rw [if_neg hkept]
      have hfree : t.occupied path = false ∨ i.force = true := by
        rw [← Bool.not_eq_true]
        simpa [Decidable.imp_iff_not_or] using hkept
      have hrun := FileTree.run_write t path product.toUTF8
      cases hwrite : t.write path product.toUTF8 with
      | error e =>
        rw [hwrite] at hrun
        rw [FileTree.run_bind_of hrun]
        exact ⟨_, _, rfl, .unwritten h hout hwrite⟩
      | ok t' =>
        rw [hwrite] at hrun
        rw [FileTree.run_bind_of hrun]
        exact ⟨_, _, rfl, .written h hout hfree hwrite⟩

/-- Every run ends in one of these ways. -/
theorem ends_run (i : Invocation) (t : FileTree) :
    ∃ outcome t', (i.run : StateM FileTree Outcome).run t = (outcome, t') ∧ i.Ends t outcome t' := by
  unfold run
  rw [FileTree.run_bind_of (FileTree.run_isFile t i.file)]
  cases hfile : t.isFile i.file with
  | false => exact ⟨_, _, rfl, .missing hfile⟩
  | true =>
    show ∃ outcome t', (Store.read i.file >>= _ : StateM FileTree Outcome).run t = (outcome, t') ∧ _
    rw [FileTree.run_bind_of (FileTree.run_read t i.file)]
    cases hread : t.read i.file with
    | error e => exact ⟨_, _, rfl, .unreadable hread⟩
    | ok content =>
      rcases hproduce : i.produce content with ⟨log, e | product⟩
      · simp only [hproduce]
        exact ⟨_, _, rfl, .rejected hread hproduce⟩
      · simp only [hproduce]
        exact ends_deliver (yields_iff.2 ⟨hfile, content, hread, by rw [hproduce]⟩) log

/-! ## Success and failure -/

/-- A run that ends without success has changed nothing and printed nothing. -/
theorem Ends.of_not_succeeds (h : i.Ends t outcome t') (hfail : ¬i.Succeeds t) :
    outcome.code = 1 ∧ outcome.stdout = "" ∧ t' = t := by
  cases h with
  | missing _ | unreadable _ | rejected _ _ | kept _ _ _ _ | unwritten _ _ _ => exact ⟨rfl, rfl, rfl⟩
  | printed hyields hout =>
    refine absurd ⟨_, hyields, fun path hpath => ?_⟩ hfail
    exact absurd (hout.symm.trans hpath) (by simp)
  | written hyields hout hfree hwrite =>
    refine absurd ⟨_, hyields, fun path hpath => ?_⟩ hfail
    obtain rfl := Option.some.inj (hout.symm.trans hpath)
    exact ⟨hfree, _, hwrite⟩

/-- A run that ends with success has printed the product, or written it. -/
theorem Ends.of_succeeds (h : i.Ends t outcome t') (hsucceeds : i.Succeeds t) :
    ∃ product, i.Yields t product ∧ outcome.code = 0 ∧
      match i.out with
      | none => outcome.stdout = product ∧ t' = t
      | some path => outcome.stdout = "" ∧ t.write path product.toUTF8 = .ok t' := by
  obtain ⟨product, hyields, hout⟩ := hsucceeds
  obtain ⟨hfile, content, hread, hproduct⟩ := yields_iff.1 hyields
  cases h with
  | missing h =>
    rw [h] at hfile
    exact absurd hfile Bool.false_ne_true
  | unreadable h => exact absurd (h.symm.trans hread) (by simp)
  | rejected h herror =>
    obtain rfl := Except.ok.inj (hread.symm.trans h)
    rw [herror] at hproduct
    exact absurd hproduct (by simp)
  | printed h hnone =>
    obtain rfl := h.unique hyields
    rw [hnone]
    exact ⟨_, hyields, rfl, rfl, rfl⟩
  | kept _ hsome hthere hforce =>
    obtain ⟨hfree, -⟩ := hout _ hsome
    rw [hthere, hforce] at hfree
    exact absurd hfree (by simp)
  | unwritten h hsome hwrite =>
    obtain rfl := h.unique hyields
    obtain ⟨-, t', hwrite'⟩ := hout _ hsome
    exact absurd (hwrite.symm.trans hwrite') (by simp)
  | written h hsome _ hwrite =>
    obtain rfl := h.unique hyields
    rw [hsome]
    exact ⟨_, hyields, rfl, rfl, hwrite⟩

/-- The same command, without an output file. -/
def toStdout (i : Invocation) : Invocation := { i with out := none }

/-- What a command yields, the same command without an output file prints, and it changes nothing. -/
theorem Yields.run_toStdout (h : i.Yields t product) :
    ∃ log, (i.toStdout.run : StateM FileTree Outcome).run t = (⟨0, product, log⟩, t) := by
  have hyields : i.toStdout.Yields t product := h
  obtain ⟨outcome, t', hrun, hends⟩ := ends_run i.toStdout t
  have hsucceeds : i.toStdout.Succeeds t := ⟨product, hyields, fun path hpath => absurd hpath (by simp [toStdout])⟩
  obtain ⟨product', hyields', hcode, hstdout, rfl⟩ := hends.of_succeeds hsucceeds
  obtain rfl := hyields.unique hyields'
  obtain ⟨code, stdout, log⟩ := outcome
  obtain rfl : code = 0 := hcode
  obtain rfl : stdout = product' := hstdout
  exact ⟨log, hrun⟩

end Invocation

/-- A command that the arguments give is carried out in full or not at all. Its status is 0 exactly if its input
yields a product and that can be put where it belongs; else the status is 1, nothing is printed and no file is
changed. With success the product is printed and no file is changed, or nothing is printed and one file is, the one
to which the path given for the output leads: it holds what the same command without an output file prints. Which
files can be read and where one can be written is the same afterwards. -/
theorem runArguments_all_or_nothing {arguments : List String} {i : Invocation}
    (h : Arguments.parse arguments = .ok i) (t : FileTree) :
    ∃ outcome t', (runArguments arguments : StateM FileTree Outcome).run t = (outcome, t') ∧
      (outcome.code = 0 ↔ i.Succeeds t) ∧
      (¬i.Succeeds t → outcome.code = 1 ∧ outcome.stdout = "" ∧ t' = t) ∧
      (i.Succeeds t → i.out = none → i.Yields t outcome.stdout ∧ t' = t) ∧
      (i.Succeeds t → ∀ path, i.out = some path → outcome.stdout = "" ∧
        ∃ printed, (i.toStdout.run : StateM FileTree Outcome).run t = (printed, t) ∧
          printed.code = 0 ∧
          ∃ found place, t.find path = .ok found ∧ found.place? = some place ∧
            t'.find path = .ok (.file place printed.stdout.toUTF8) ∧
            (∀ other, other ≠ place → t'.get? other = t.get? other) ∧
            t'.unreadable = t.unreadable ∧ t'.unwritable = t.unwritable) := by
  obtain ⟨outcome, t', hrun, hends⟩ := i.ends_run t
  have hrun' : (runArguments arguments : StateM FileTree Outcome).run t = (outcome, t') := by
    rw [runArguments, h]
    exact hrun
  refine ⟨outcome, t', hrun', ?_, hends.of_not_succeeds, ?_, ?_⟩
  · constructor
    · intro hcode
      by_contra hfail
      have hone := (hends.of_not_succeeds hfail).1
      omega
    · intro hsucceeds
      obtain ⟨-, -, hcode, -⟩ := hends.of_succeeds hsucceeds
      exact hcode
  · intro hsucceeds hnone
    obtain ⟨product, hyields, -, hout⟩ := hends.of_succeeds hsucceeds
    rw [hnone] at hout
    exact ⟨hout.1 ▸ hyields, hout.2⟩
  · intro hsucceeds path hpath
    obtain ⟨product, hyields, -, hout⟩ := hends.of_succeeds hsucceeds
    rw [hpath] at hout
    obtain ⟨log, hprinted⟩ := hyields.run_toStdout
    exact ⟨hout.1, _, hprinted, rfl, FileTree.find_of_write hout.2⟩

/-- A file with a grammar, and another file. -/
def greetingFiles : FileTree :=
  .ofList [("hi.ugen", "intent Hi: [hi];".toUTF8), ("notes", "keep".toUTF8)]

/-- A command that has the file of its grammar as its output file. -/
def overwriting (force : Bool) : Invocation := ⟨.print, "hi.ugen", some "hi.ugen", force, []⟩

/-- The listing of the grammar's only rule, whether the file may be written over or not. -/
theorem overwriting_yields (force : Bool) :
    (overwriting force).Yields greetingFiles "Rule 'Hi' (Intent):\n  hi\n" := by
  have hfile : greetingFiles.isFile "hi.ugen" = true := by decide +kernel
  have hread : greetingFiles.read "hi.ugen" = .ok "intent Hi: [hi];".toUTF8 := rfl
  have hutf : String.fromUTF8? "intent Hi: [hi];".toUTF8 = some "intent Hi: [hi];" := rfl
  have hparse : Grammar.parse "intent Hi: [hi];".toList =
      .ok [⟨"Hi", .intent, [[.literals ["hi".toList] false]]⟩] := by decide +kernel
  have hgenerate : (Grammar.generate [⟨"Hi", .intent, [[.literals ["hi".toList] false]]⟩]).outcome =
      .ok ⟨[⟨⟨"Hi", .intent, [[.literals ["hi".toList] false]]⟩, ["hi".toList], [⟨"hi".toList, []⟩]⟩]⟩ := by
    decide +kernel
  exact ⟨hfile, _, _, _, _, hread, hutf, hparse, hgenerate, by cases force <;> decide +kernel⟩

/-- What a system says of a file that is not for everyone. -/
def accessDenied : StoreError := .other 13 "Permission denied"

/-- The files, with the grammar in one that cannot be read. -/
def secretFiles : FileTree := { greetingFiles with unreadable := [(["hi.ugen"], accessDenied)] }

/-- The files, with the grammar in one that can be read but not written. -/
def lockedFiles : FileTree := { greetingFiles with unwritable := [(["hi.ugen"], accessDenied)] }

/-- Without the option the input file stays, with it the listing of its rules is there instead. If the file cannot be
read, or can be read but not written, it stays too. -/
theorem runArguments_all_or_nothing_greeting :
    (∃ outcome, (runArguments ["print", "hi.ugen", "--out", "hi.ugen"] : StateM FileTree Outcome).run greetingFiles =
      (outcome, greetingFiles) ∧ outcome.code = 1 ∧ outcome.stdout = "") ∧
    (∃ outcome t', (runArguments ["print", "hi.ugen", "--out", "hi.ugen", "--force"] :
        StateM FileTree Outcome).run greetingFiles = (outcome, t') ∧ outcome.code = 0 ∧ outcome.stdout = "" ∧
      ∃ printed, ((overwriting true).toStdout.run : StateM FileTree Outcome).run greetingFiles =
          (printed, greetingFiles) ∧
        t'.find "hi.ugen" = .ok (.file ["hi.ugen"] printed.stdout.toUTF8) ∧
        t'.get? ["notes"] = some "keep".toUTF8) ∧
    ∀ t ∈ [secretFiles, lockedFiles], ∃ outcome,
      (runArguments ["print", "hi.ugen", "--out", "hi.ugen", "--force"] : StateM FileTree Outcome).run t =
        (outcome, t) ∧ outcome.code = 1 ∧ outcome.stdout = "" := by
  have hforced : Arguments.parse ["print", "hi.ugen", "--out", "hi.ugen", "--force"] = .ok (overwriting true) := rfl
  refine ⟨?_, ?_, ?_⟩
  · have hparse : Arguments.parse ["print", "hi.ugen", "--out", "hi.ugen"] = .ok (overwriting false) := rfl
    obtain ⟨outcome, t', hrun, -, hfailure, -⟩ := runArguments_all_or_nothing hparse greetingFiles
    have hfail : ¬(overwriting false).Succeeds greetingFiles := by
      rintro ⟨_, -, hout⟩
      have hfree := (hout "hi.ugen" rfl).1
      revert hfree
      decide +kernel
    obtain ⟨hcode, hstdout, rfl⟩ := hfailure hfail
    exact ⟨outcome, hrun, hcode, hstdout⟩
  · obtain ⟨outcome, t', hrun, hiff, -, -, hwritten⟩ := runArguments_all_or_nothing hforced greetingFiles
    have hsucceeds : (overwriting true).Succeeds greetingFiles := by
      refine ⟨_, overwriting_yields true, fun path hpath => ?_⟩
      obtain rfl := Option.some.inj hpath
      exact ⟨.inr rfl, _, rfl⟩
    obtain ⟨hstdout, printed, hprinted, -, found, place, hbefore, hplace, hafter, hothers, -, -⟩ :=
      hwritten hsucceeds "hi.ugen" rfl
    have hthere : greetingFiles.find "hi.ugen" = .ok (.file ["hi.ugen"] "intent Hi: [hi];".toUTF8) := rfl
    obtain rfl := Except.ok.inj (hthere.symm.trans hbefore)
    obtain rfl : ["hi.ugen"] = place := Option.some.inj hplace
    exact ⟨outcome, t', hrun, hiff.2 hsucceeds, hstdout, printed, hprinted, hafter, hothers ["notes"] (by decide)⟩
  · have hthere : ∀ t ∈ [secretFiles, lockedFiles],
        t.find "hi.ugen" = .ok (.file ["hi.ugen"] "intent Hi: [hi];".toUTF8) ∧
          (t.unreadable.lookup ["hi.ugen"] ≠ none ∨ t.unwritable.lookup ["hi.ugen"] ≠ none) := by
      rw [List.forall_mem_cons, List.forall_mem_singleton]
      exact ⟨⟨rfl, .inl nofun⟩, rfl, .inr nofun⟩
    intro t ht
    obtain ⟨hfound, hbarred⟩ := hthere t ht
    obtain ⟨outcome, t', hrun, -, hfailure, -⟩ := runArguments_all_or_nothing hforced t
    have hfail : ¬(overwriting true).Succeeds t := by
      intro hsucceeds
      obtain ⟨⟨place, content, hinput, hreadable⟩, hout⟩ := hsucceeds.permitted
      obtain ⟨found, place', houtput, hplace, hwritable⟩ := hout "hi.ugen" rfl
      -- input and output are the one file
      cases hfound.symm.trans hinput
      cases hfound.symm.trans houtput
      cases hplace
      exact hbarred.elim (absurd hreadable) (absurd hwritable)
    obtain ⟨hcode, hstdout, rfl⟩ := hfailure hfail
    exact ⟨outcome, hrun, hcode, hstdout⟩

end UtteranceGrammar
