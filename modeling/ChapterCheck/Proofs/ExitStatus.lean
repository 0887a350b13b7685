import ChapterCheck.CommandLine.Execution
import ChapterCheck.Proofs.DiskDepth
import ChapterCheck.Proofs.ReportCodec
import ChapterCheck.Proofs.RunEnding

namespace ChapterCheck

namespace Validation

variable {tree : ContentTree} {config : Config} {outcome : Except Failure Report}

def Clean (tree : ContentTree) (config : Config) : Prop :=
  tree.Lists config.root ∧ ∀ p, tree.IsDocument config.root config.extension p →
    ∃ bytes, tree.read p = .ok bytes ∧ Document.expected config p bytes = []

theorem Ends.clean (ends : Ends tree config outcome) :
    (∃ report, outcome = .ok report ∧ report.findings = []) ↔ Clean tree config := by
  constructor
  · rintro ⟨report, rfl, spotless⟩
    cases ends with
    | reported lists reads all =>
      refine ⟨lists, fun p document => ?_⟩
      obtain ⟨bytes, read⟩ := reads p document
      have held := (all p bytes).mpr ⟨document, read⟩
      exact ⟨bytes, read, List.flatMap_eq_nil_iff.mp spotless (p, bytes) held⟩
  · rintro ⟨lists, clean⟩
    have reads : Reads tree config := by
      intro p document
      obtain ⟨bytes, read, -⟩ := clean p document
      exact ⟨bytes, read⟩
    obtain ⟨report, rfl⟩ := ends.done lists reads
    refine ⟨report, rfl, ?_⟩
    cases ends with
    | reported _ _ all =>
      refine List.flatMap_eq_nil_iff.mpr ?_
      rintro ⟨p, bytes⟩ held
      obtain ⟨document, read⟩ := (all p bytes).mp held
      obtain ⟨bytes', read', spotless⟩ := clean p document
      rw [read] at read'
      cases read'
      exact spotless

end Validation

namespace CommandLine

def bytesOf (text : String) : List UInt8 := Text.encode text.toList

def failedText (r : Report) : String :=
  "Docs validation failed:\n" ++ String.join (r.findings.map fun f => "- " ++ f.describe ++ "\n")

def crashedText (cause : String) : String := "Docs validation crashed: " ++ cause ++ "\n"

-- What a run leaves behind by how the check ended: its exit status, its output and its errors.
inductive Leaves : ReportFormat → Except Failure Report → Nat → List UInt8 → List UInt8 → Prop where
  | passed (spotless : r.findings = []) : Leaves .human (.ok r) 0 (bytesOf r.summary) []
  | failed (faulty : r.findings ≠ []) : Leaves .human (.ok r) 1 [] (bytesOf (failedText r))
  | told (textual : r.Textual) (found : r.toJson? = some json) :
      Leaves .json (.ok r) r.exitCode (bytesOf (json.pretty ++ "\n")) []
  | untold (broken : ¬r.Textual) : Leaves .json (.ok r) 1 []
      (bytesOf (crashedText "path contains invalid UTF-8 characters"))
  | crashed {failure : Failure} : Leaves format (.error failure) 1 []
      (bytesOf (crashedText (failure.message ++ ": " ++ failure.cause.message)))

theorem exitCode_exact (r : Report) : r.exitCode = 0 ↔ r.findings = [] := by
  simp [Report.exitCode, Report.passed]

theorem exitCode_cases (r : Report) : r.exitCode = 0 ∨ r.exitCode = 1 := by
  unfold Report.exitCode
  split <;> simp

theorem exitCode_broken {r : Report} (broken : ¬r.Textual) : r.findings ≠ [] := by
  intro spotless
  refine broken fun f present => ?_
  rw [spotless] at present
  cases present

variable {format : ReportFormat} {outcome : Except Failure Report} {code : Nat}
  {out err : List UInt8}

theorem Leaves.passes (leaves : Leaves format outcome code out err) :
    code = 0 ↔ ∃ report, outcome = .ok report ∧ report.findings = [] := by
  cases leaves with
  | passed spotless => simp [spotless]
  | failed faulty => simp [faulty]
  | told textual found => simp [exitCode_exact]
  | untold broken => simp [exitCode_broken broken]
  | crashed => simp

theorem Leaves.status (leaves : Leaves format outcome code out err) : code = 0 ∨ code = 1 := by
  cases leaves with
  | passed => exact .inl rfl
  | told => exact exitCode_cases _
  | failed | untold | crashed => exact .inr rfl

theorem Leaves.same {format' : ReportFormat} {code' : Nat} {out' err' : List UInt8}
    (leaves : Leaves format outcome code out err)
    (leaves' : Leaves format' outcome code' out' err') : code = code' := by
  have passes : code = 0 ↔ code' = 0 := leaves.passes.trans leaves'.passes.symm
  have status := leaves.status
  have status' := leaves'.status
  omega

namespace Execution

theorem crashed_exact (chain : List String) : crashed chain =
    { exitCode := 1, stderr := bytesOf (crashedText (String.intercalate ": " chain)) } := by
  have header : "Docs validation crashed:" ++ " " = "Docs validation crashed: " := by decide
  have text : String.join (crashPieces chain) = crashedText (String.intercalate ": " chain) := by
    unfold crashPieces crashedText crashedHeader
    rw [← header, String.join_cons, String.join_cons, String.join_cons, String.join_cons,
      String.join_nil, String.append_empty, String.append_assoc, String.append_assoc]
  rw [crashed, writeCrash, Sink.putAll_open, text, List.nil_append, bytesOf]

theorem reported_leaves (format : ReportFormat) (r : Report) :
    Leaves format (.ok r) (reported format r).exitCode (reported format r).stdout
      (reported format r).stderr := by
  cases format with
  | human =>
    by_cases spotless : r.findings = []
    · have passed : r.passed = true := by simp [Report.passed, spotless]
      have told : reported .human r = ⟨0, bytesOf r.summary, [], []⟩ := by
        simp [reported, Report.writeHuman, Report.exitCode, passed, Sink.putAll_open, bytesOf]
      simp only [told]
      exact .passed spotless
    · have passed : r.passed = false := by simp [Report.passed, spotless]
      have text : String.join r.failedPieces = failedText r := by
        unfold Report.failedPieces failedText Report.failedHeader
        rw [String.join_cons]
      have told : reported .human r = ⟨1, [], bytesOf (failedText r), []⟩ := by
        simp [reported, Report.writeHuman, Report.exitCode, passed, Sink.putAll_open, bytesOf, text]
      simp only [told]
      exact .failed spotless
  | json =>
    by_cases textual : r.Textual
    · obtain ⟨fields, found, -⟩ := Report.toJson_told textual
      have told : reported .json r =
          ⟨r.exitCode, bytesOf ((Json.object fields).pretty ++ "\n"), [], []⟩ := by
        simp [reported, Report.writeJson, found, Sink.putAll_open, bytesOf]
      simp only [told]
      exact .told textual found
    · have told : reported .json r = crashed [WriteError.pathNotUtf8.message] := by
        rw [reported, Report.writeJson, Report.toJson_none textual]
      have cause : String.intercalate ": " [WriteError.pathNotUtf8.message] =
          "path contains invalid UTF-8 characters" := by
        rw [String.intercalate_singleton, WriteError.message]
      simp only [told, crashed_exact, cause]
      exact .untold textual

def ofOutcome (format : ReportFormat) : Except Failure Report → Execution
  | .ok report => reported format report
  | .error failure => crashed (failure.chain [])

theorem outcome_leaves (format : ReportFormat) (outcome : Except Failure Report) :
    Leaves format outcome (ofOutcome format outcome).exitCode (ofOutcome format outcome).stdout
      (ofOutcome format outcome).stderr := by
  cases outcome with
  | ok report => exact reported_leaves format report
  | error failure =>
    have chain : String.intercalate ": " (failure.chain []) =
        failure.message ++ ": " ++ failure.cause.message := rfl
    simp only [ofOutcome, crashed_exact, chain]
    exact .crashed

theorem ofArguments_check {options : Options} (accepted : read args = .check options)
    (tree : ContentTree) (base : Path) :
    ∃ log, ofArguments tree base args =
      { ofOutcome options.format (validate tree (.forBase base)) with log := log } := by
  rw [ofArguments, accepted]
  exact ⟨_, rfl⟩

end Execution

open Execution

theorem headers_apart (err : List UInt8) : ¬(bytesOf "Docs validation failed:" <+: err ∧
    bytesOf "Docs validation crashed:" <+: err) := by
  rintro ⟨failed, crashed⟩
  have nested := List.prefix_of_prefix_length_le failed crashed (by decide)
  revert nested
  decide

-- A check exits with 0 where all is listed, read and without defects, and with 1 otherwise,
-- whatever else was asked for. What it writes follows from how it ended; the verbosity has no
-- part in it.
theorem ofArguments_leaves (tree : ContentTree) (base : Path) {args : List String}
    {options : Options} (accepted : read args = .check options)
    (finite : tree.FiniteBelow (Config.forBase base).root) :
    ((ofArguments tree base args).exitCode = 0 ↔ Validation.Clean tree (.forBase base)) ∧
      ((ofArguments tree base args).exitCode = 0 ∨ (ofArguments tree base args).exitCode = 1) ∧
      Validation.Ends tree (.forBase base) (validate tree (.forBase base)) ∧
      Leaves options.format (validate tree (.forBase base)) (ofArguments tree base args).exitCode
        (ofArguments tree base args).stdout (ofArguments tree base args).stderr ∧
      ¬(bytesOf "Docs validation failed:" <+: (ofArguments tree base args).stderr ∧
        bytesOf "Docs validation crashed:" <+: (ofArguments tree base args).stderr) ∧
      ∀ args' options', read args' = .check options' →
        (ofArguments tree base args').exitCode = (ofArguments tree base args).exitCode ∧
          (options'.format = options.format →
            (ofArguments tree base args').stdout = (ofArguments tree base args).stdout ∧
              (ofArguments tree base args').stderr = (ofArguments tree base args).stderr) := by
  obtain ⟨log, left⟩ := ofArguments_check accepted tree base
  have ends := Validation.validate_ends finite
  have leaves := outcome_leaves options.format (validate tree (.forBase base))
  rw [left]
  refine ⟨leaves.passes.trans ends.clean, leaves.status, ends, leaves, headers_apart _, ?_⟩
  intro args' options' accepted'
  obtain ⟨log', left'⟩ := ofArguments_check accepted' tree base
  have leaves' := outcome_leaves options'.format (validate tree (.forBase base))
  rw [left']
  constructor
  · exact leaves'.same leaves
  · intro same
    rw [same]
    exact ⟨rfl, rfl⟩

def openChapter : Disk.Step :=
  .file (.ofString "src/content/docs/a.mdx") [0x60, 0x60, 0x60, 0x0a]

def home : Path := .ofString "/book"

theorem openChapter_statuses : ∃ d, Disk.empty.apply openChapter = .ok d ∧
    (ofArguments (d.contents home) home ["--format", "json", "-vv"]).exitCode =
      (ofArguments (d.contents home) home []).exitCode := by
  obtain ⟨d, done⟩ : ∃ d, Disk.empty.apply openChapter = .ok d := ⟨_, rfl⟩
  have finite := Disk.finite_below (.changed .empty done) home (Config.forBase home).root
  have plain : read [] = .check ⟨.human, 0⟩ := by decide
  have json : read ["--format", "json", "-vv"] = .check ⟨.json, 2⟩ := by decide
  exact ⟨d, done, ((ofArguments_leaves (d.contents home) home plain finite).2.2.2.2.2 _ _ json).1⟩

end CommandLine
end ChapterCheck
