import ChapterCheck.Proofs.ExitStatus
import ChapterCheck.Proofs.LimitedSinks
import ChapterCheck.Proofs.TextLines

namespace ChapterCheck

open CommandLine (bytesOf exitCode_exact)

namespace Json

-- Of a name that stood twice the first value would count; a report holds none twice.
def field? (name : String) : Json → Option Json
  | .object fields => fields.lookup name
  | _ => none

def text? : Json → Option String
  | .text s => some s
  | _ => none

def number? : Json → Option Nat
  | .number n => some n
  | _ => none

def numberOrNull? : Json → Option (Option Nat)
  | .null => some none
  | .number n => some (some n)
  | _ => none

def items? : Json → Option (List Json)
  | .array items => some items
  | _ => none

end Json

-- What can be read of a finding, and of a whole report, in the JSON alone.
structure Notice where
  file : String
  line : Option Nat
  message : String
  deriving DecidableEq

structure Account where
  filesScanned : Nat
  codeBlocks : Nat
  notices : List Notice
  deriving DecidableEq

def Notice.ofJson? (j : Json) : Option Notice := do
  let file ← (j.field? "file").bind Json.text?
  let line ← (j.field? "line").bind Json.numberOrNull?
  let message ← (j.field? "message").bind Json.text?
  return ⟨file, line, message⟩

def Account.ofJson? (j : Json) : Option Account := do
  let files ← (j.field? "files_scanned").bind Json.number?
  let blocks ← (j.field? "code_blocks").bind Json.number?
  let errors ← (j.field? "errors").bind Json.items?
  let notices ← errors.mapM Notice.ofJson?
  return ⟨files, blocks, notices⟩

def Account.read? (bytes : List UInt8) : Option Account :=
  ((Text.decode? bytes).bind Json.read?).bind ofJson?

def Notice.place (n : Notice) : String :=
  match n.line with
  | some line => ":" ++ toString line
  | none => ""

def Notice.words (n : Notice) : String := "- " ++ n.file ++ n.place ++ ": " ++ n.message

namespace Account

def passed (a : Account) : String :=
  "Docs validation passed: " ++ toString a.filesScanned ++ " files, " ++
    toString a.codeBlocks ++ " code blocks.\n"

def failedLines (a : Account) : List String := "Docs validation failed:" :: a.notices.map Notice.words

def failed (a : Account) : String := String.join (a.failedLines.map (· ++ "\n"))

end Account

structure Finding.OneLine (f : Finding) : Prop where
  file : 0x0a ∉ f.file.bytes
  label : ∀ label, f.defect.label? = some label → '\n' ∉ label.toList

-- A sink is used where it can be left otherwise than it was.
def Report.UsesOut (r : Report) : Prop := ∃ out err, (r.writeHuman out err).1.1 ≠ out

def Report.UsesErr (r : Report) : Prop := ∃ out err, (r.writeHuman out err).1.2 ≠ err

theorem mapM_related {R : α → β → Prop} {f : β → Option γ} {g : α → γ} {xs : List α} {ys : List β}
    (related : List.Forall₂ R xs ys) (each : ∀ x y, R x y → f y = some (g x)) :
    ys.mapM f = some (xs.map g) := by
  induction related with
  | nil => rfl
  | cons first _ ih =>
    rw [List.mapM_cons, each _ _ first, ih]
    rfl

theorem Path.display_text {p : Path} {text : String} (bytes : p.bytes = Text.encode text.toList) :
    p.display = text := by
  rw [display, bytes, Text.decodeLossy_encode, String.ofList_toList]

theorem Defect.message_within {d : Defect}
    (label : ∀ label, d.label? = some label → '\n' ∉ label.toList) : '\n' ∉ d.message.toList := by
  cases d with
  | forbiddenPattern own =>
    have first : '\n' ∉ "contains forbidden pattern ".toList := by simp
    have whole : (forbiddenPattern own).message = "contains forbidden pattern " ++ own := rfl
    rw [whole, String.toList_append, List.mem_append]
    exact not_or.mpr ⟨first, label own rfl⟩
  | missingFrontmatter | missingTitle | missingDescription | unclosedFence => decide +kernel

namespace Notice

variable {f : Finding} {fields : List (String × Json)}

def ofFinding (f : Finding) : Notice := ⟨f.file.display, f.line, f.message⟩

theorem ofJson_told (told : f.ToldBy fields) : ofJson? (.object fields) = some (ofFinding f) := by
  obtain ⟨text, file, bytes⟩ := told.file
  have line : ((f.line.map Json.number).getD .null).numberOrNull? = some f.line := by
    cases f.line <;> rfl
  rw [ofFinding, Path.display_text bytes]
  simp [ofJson?, Json.field?, file, told.line, told.message, line, Json.text?]

theorem words_describe (f : Finding) : (ofFinding f).words = "- " ++ f.describe := by
  obtain ⟨file, line, defect⟩ := f
  cases line <;> simp [words, place, ofFinding, Finding.describe, String.append_assoc]

theorem place_within (n : Notice) : '\n' ∉ n.place.toList := by
  unfold place
  cases n.line with
  | none => decide
  | some line =>
    have digits : '\n' ∉ Nat.toDigits 10 line := fun present =>
      absurd (Nat.isDigit_of_mem_toDigits (by decide) (by decide) present) (by decide)
    simpa using digits

theorem words_within (textual : f.file.Textual) (plain : f.OneLine) :
    '\n' ∉ (ofFinding f).words.toList := by
  obtain ⟨text, bytes⟩ := textual
  have file : '\n' ∉ (ofFinding f).file.toList := by
    rw [ofFinding, Path.display_text bytes]
    intro present
    have held : 0x0a ∈ Text.encode text.toList := List.mem_flatMap_of_mem present (by decide)
    exact plain.file (bytes ▸ held)
  have place := place_within (ofFinding f)
  have message : '\n' ∉ (ofFinding f).message.toList := Defect.message_within plain.label
  simp [words, file, place, message]

end Notice

theorem bytesOf_empty {text : String} (blank : bytesOf text = []) : text.toList = [] :=
  Text.encode_injective blank

namespace Account

variable {r : Report} {fields : List (String × Json)}

def ofReport (r : Report) : Account :=
  ⟨r.filesScanned, r.codeBlocks, r.findings.map Notice.ofFinding⟩

theorem ofJson_told (told : r.ToldBy fields) : ofJson? (.object fields) = some (ofReport r) := by
  obtain ⟨errors, found, all⟩ := told.errors
  have notices : errors.mapM Notice.ofJson? = some (r.findings.map Notice.ofFinding) := by
    refine mapM_related all ?_
    rintro f j ⟨own, rfl, told⟩
    exact Notice.ofJson_told told
  simp [ofJson?, Json.field?, told.files, told.blocks, found, Json.number?, Json.items?, notices,
    ofReport]

-- The line feed behind the JSON is a gap to its reader.
theorem read_written (textual : r.Textual) :
    read? (r.writeJson {}).1.written = some (ofReport r) := by
  obtain ⟨fields, found, told⟩ := Report.toJson_told textual
  have feed : Json.Spells [] ['\n'] := .gap (by decide) .nothing
  have spelled := (Json.render_spelled (.object fields) 0).append feed (Json.ends_cons (by decide))
  rw [List.append_nil] at spelled
  rw [read?, Report.writeJson_text found, List.nil_append, Text.decode_encode, Option.bind_some,
    Json.read_spelled spelled, Option.bind_some, ofJson_told told]

theorem passed_summary (r : Report) : (ofReport r).passed = r.summary := rfl

theorem failed_pieces (r : Report) : (ofReport r).failed = String.join r.failedPieces := by
  have header : "Docs validation failed:" ++ "\n" = Report.failedHeader := by decide
  have line : ∀ f, (Notice.ofFinding f).words ++ "\n" = "- " ++ f.describe ++ "\n" :=
    fun f => by rw [Notice.words_describe]
  simp only [failed, failedLines, ofReport, Report.failedPieces, List.map_cons, List.map_map,
    Function.comp_def, header, line]

theorem failed_text (a : Account) :
    a.failed.toList = (a.failedLines.map String.toList).flatMap (· ++ ['\n']) := by
  have feed : ("\n" : String).toList = ['\n'] := by decide
  simp only [failed, String.toList_join, List.flatMap_map, String.toList_append, feed]

theorem passed_filled (a : Account) : bytesOf a.passed ≠ [] := by
  intro blank
  have chars := bytesOf_empty blank
  obtain ⟨front, whole⟩ : ∃ front, a.passed = front ++ " code blocks.\n" := ⟨_, rfl⟩
  rw [whole, String.toList_append] at chars
  exact List.append_ne_nil_of_right_ne_nil _ (by simp) chars

theorem failed_filled (a : Account) : bytesOf a.failed ≠ [] := by
  intro blank
  have chars := bytesOf_empty blank
  rw [failed_text, failedLines, List.map_cons, List.flatMap_cons, List.append_assoc] at chars
  exact List.append_ne_nil_of_right_ne_nil _ (List.cons_ne_nil _ _) chars

theorem failedLines_within (textual : r.Textual) (plain : ∀ f ∈ r.findings, f.OneLine) :
    ∀ line ∈ (ofReport r).failedLines, '\n' ∉ line.toList := by
  intro line present
  rcases List.mem_cons.mp present with rfl | present
  · simp
  · obtain ⟨n, held, rfl⟩ := List.mem_map.mp present
    obtain ⟨f, own, rfl⟩ := List.mem_map.mp held
    exact Notice.words_within (textual f own) (plain f own)

theorem failed_lines (textual : r.Textual) (plain : ∀ f ∈ r.findings, f.OneLine) :
    (Text.lines (ofReport r).failed.toList).length = 1 + r.findings.length := by
  have within : ∀ l ∈ (ofReport r).failedLines.map String.toList, '\n' ∉ l := by
    rw [List.forall_mem_map]
    exact failedLines_within textual plain
  rw [failed_text, Text.lines_each within]
  simp [failedLines, ofReport, Nat.add_comm]

end Account

namespace Report

variable {r : Report}

theorem writeHuman_summary (passed : r.findings = []) (before : List UInt8) (err : Sink) :
    r.writeHuman ⟨none, before⟩ err =
      ((⟨none, before ++ bytesOf (Account.ofReport r).passed⟩, err), none) := by
  have summary : String.join [r.summary] = (Account.ofReport r).passed := by
    rw [String.join_cons, String.join_nil, String.append_empty, Account.passed_summary]
  refine writeHuman_passed passed ?_ err
  rw [Sink.putAll_open, summary, bytesOf]

theorem writeHuman_lines (failed : r.findings ≠ []) (out : Sink) (before : List UInt8) :
    r.writeHuman out ⟨none, before⟩ =
      ((out, ⟨none, before ++ bytesOf (Account.ofReport r).failed⟩), none) := by
  refine writeHuman_failed failed ?_ out
  rw [Sink.putAll_open, Account.failed_pieces, bytesOf]

theorem uses_passed (passed : r.findings = []) : r.UsesOut ∧ ¬r.UsesErr := by
  constructor
  · refine ⟨{}, {}, fun same => Account.passed_filled (Account.ofReport r) ?_⟩
    rw [writeHuman_summary passed [] {}, List.nil_append] at same
    exact (Sink.mk.inj same).2
  · rintro ⟨out, err, changed⟩
    exact changed (by rw [writeHuman_passed passed rfl err])

theorem uses_failed (failed : r.findings ≠ []) : ¬r.UsesOut ∧ r.UsesErr := by
  constructor
  · rintro ⟨out, err, changed⟩
    exact changed (by rw [writeHuman_failed failed rfl out])
  · refine ⟨{}, {}, fun same => Account.failed_filled (Account.ofReport r) ?_⟩
    rw [writeHuman_lines failed {} [], List.nil_append] at same
    exact (Sink.mk.inj same).2

theorem exitCode_uses (r : Report) :
    (r.exitCode = 0 ↔ r.UsesOut) ∧ (r.exitCode ≠ 0 ↔ r.UsesErr) := by
  by_cases passed : r.findings = []
  · have used := uses_passed passed
    simp [exitCode_exact, passed, used]
  · have used := uses_failed passed
    simp [exitCode_exact, passed, used]

-- What is told in words can be told from the JSON alone, by the rules of an account, and the exit
-- code is zero just where it goes to the first sink. Where no path and no label holds a line feed
-- there is one line for the header and one for each finding.
theorem formats_agree (r : Report) (textual : r.Textual) :
    ∃ account, Account.read? (r.writeJson {}).1.written = some account ∧
      (account.notices = [] → ∀ before err, r.writeHuman ⟨none, before⟩ err =
        ((⟨none, before ++ bytesOf account.passed⟩, err), none)) ∧
      (account.notices ≠ [] → ∀ out before, r.writeHuman out ⟨none, before⟩ =
        ((out, ⟨none, before ++ bytesOf account.failed⟩), none)) ∧
      ((∀ f ∈ r.findings, f.OneLine) →
        (Text.lines account.failed.toList).length = 1 + r.findings.length) ∧
      (r.exitCode = 0 ↔ r.UsesOut) ∧ (r.exitCode ≠ 0 ↔ r.UsesErr) := by
  have notices : (Account.ofReport r).notices = [] ↔ r.findings = [] := List.map_eq_nil_iff
  refine ⟨_, Account.read_written textual, ?_, ?_, Account.failed_lines textual, exitCode_uses r⟩
  · intro quiet
    exact writeHuman_summary (notices.mp quiet)
  · intro noticed
    exact writeHuman_lines (mt notices.mpr noticed)

def quotedAccount : Account :=
  ⟨2, 1, [⟨"docs/\"a\".md", some 3, "has unclosed code fence"⟩,
    ⟨"docs/é.md", none, "contains forbidden pattern \\TODO\t"⟩]⟩

theorem quotedReport_agrees :
    Account.read? (quotedReport.writeJson {}).1.written = some quotedAccount ∧
      quotedAccount.failed = "Docs validation failed:\n" ++
        "- docs/\"a\".md:3: has unclosed code fence\n" ++
        "- docs/é.md: contains forbidden pattern \\TODO\t\n" ∧
      quotedReport.writeHuman {} {} = (({}, ⟨none, bytesOf quotedAccount.failed⟩), none) ∧
      (Text.lines quotedAccount.failed.toList).length = 3 ∧ quotedReport.UsesErr ∧
      ({} : Report).UsesOut := by
  have textual : quotedReport.Textual := by
    intro f present
    rcases List.mem_pair.mp present with rfl | rfl <;> exact ⟨_, rfl⟩
  have plain : ∀ f ∈ quotedReport.findings, f.OneLine := by
    intro f present
    rcases List.mem_pair.mp present with rfl | rfl
    · exact ⟨by decide +kernel, nofun⟩
    · exact ⟨by decide +kernel, fun label own => by cases own; decide +kernel⟩
  have whole : Account.ofReport quotedReport = quotedAccount := by decide +kernel
  have read := Account.read_written textual
  rw [whole] at read
  obtain ⟨account, found, -, failed, lines, -, errs⟩ := formats_agree quotedReport textual
  obtain rfl : quotedAccount = account := Option.some.inj (read.symm.trans found)
  obtain ⟨_, -, -, -, -, outs, -⟩ := formats_agree {} nofun
  have told := failed nofun {} []
  rw [List.nil_append] at told
  exact ⟨read, by decide +kernel, told, lines plain, errs.mp (by decide), outs.mp rfl⟩

end Report

end ChapterCheck
