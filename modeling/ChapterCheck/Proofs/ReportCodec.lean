import ChapterCheck.Output
import ChapterCheck.Proofs.JsonReading
import ChapterCheck.Proofs.Utf8Codec

namespace ChapterCheck

def Path.Textual (p : Path) : Prop := ∃ text : String, p.bytes = Text.encode text.toList

def Report.Textual (r : Report) : Prop := ∀ f ∈ r.findings, f.file.Textual

-- What the fields of an object say of a finding: each thing under its own name, the label for
-- forbidden patterns only, and no name twice.
structure Finding.ToldBy (f : Finding) (fields : List (String × Json)) : Prop where
  once : (fields.map Prod.fst).Nodup
  file : ∃ text : String,
    fields.lookup "file" = some (.text text) ∧ f.file.bytes = Text.encode text.toList
  line : fields.lookup "line" = some ((f.line.map Json.number).getD .null)
  kind : fields.lookup "kind" = some (.text f.defect.tag)
  pattern : fields.lookup "pattern" = f.defect.label?.map .text
  message : fields.lookup "message" = some (.text f.message)

structure Report.ToldBy (r : Report) (fields : List (String × Json)) : Prop where
  once : (fields.map Prod.fst).Nodup
  files : fields.lookup "files_scanned" = some (.number r.filesScanned)
  blocks : fields.lookup "code_blocks" = some (.number r.codeBlocks)
  errors : ∃ errors : List Json, fields.lookup "errors" = some (.array errors) ∧
    List.Forall₂ (fun f j => ∃ fields, j = .object fields ∧ Finding.ToldBy f fields)
      r.findings errors

theorem mapM_found {f : α → Option β} {R : α → β → Prop} {xs : List α}
    (found : ∀ x ∈ xs, ∃ y, f x = some y ∧ R x y) :
    ∃ ys, xs.mapM f = some ys ∧ List.Forall₂ R xs ys := by
  induction xs with
  | nil => exact ⟨[], rfl, .nil⟩
  | cons x rest ih =>
    obtain ⟨y, first, related⟩ := found x List.mem_cons_self
    obtain ⟨ys, others, all⟩ := ih fun x later => found x (List.mem_cons_of_mem _ later)
    exact ⟨y :: ys, by rw [List.mapM_cons, first, others]; rfl, .cons related all⟩

theorem mapM_missing {f : α → Option β} {xs : List α} (present : x ∈ xs) (missing : f x = none) :
    xs.mapM f = none := by
  induction present with
  | head => rw [List.mapM_cons, missing]; rfl
  | tail y _ ih =>
    rw [List.mapM_cons, ih]
    cases f y <;> rfl

theorem Sink.putAll_open (before : List UInt8) (pieces : List String) :
    Sink.putAll ⟨none, before⟩ pieces =
      (⟨none, before ++ Text.encode (String.join pieces).toList⟩, none) := by
  induction pieces generalizing before with
  | nil => simp [putAll, Text.encode]
  | cons piece rest ih =>
    rw [String.join_cons, String.toList_append, Text.encode_append, ← List.append_assoc]
    exact ih _

theorem Path.textual_exact (p : Path) : p.Textual ↔ ∃ text, p.text? = some text := by
  simp only [Textual, text_exact]

theorem Defect.unique {d d' : Defect} (tag : d.tag = d'.tag) (label : d.label? = d'.label?) :
    d = d' := by
  cases d <;> cases d' <;> simp_all [Defect.tag, label?]

namespace Finding

variable {f f' : Finding} {fields : List (String × Json)}

theorem toJson_told (textual : f.file.Textual) :
    ∃ j, f.toJson? = some j ∧ ∃ fields, j = .object fields ∧ f.ToldBy fields := by
  obtain ⟨text, found⟩ := (Path.textual_exact _).mp textual
  have bytes := (Path.text_exact _ _).mp found
  refine ⟨_, by rw [toJson?, found, Option.map_some], _, rfl, ?_⟩
  obtain ⟨file, line, defect⟩ := f
  cases defect <;> exact ⟨by simp [Defect.label?], ⟨text, rfl, bytes⟩, rfl, rfl, rfl, rfl⟩

theorem toJson_none (broken : ¬f.file.Textual) : f.toJson? = none := by
  cases found : f.file.text? with
  | none => rw [toJson?, found, Option.map_none]
  | some text => exact absurd ((Path.textual_exact _).mpr ⟨text, found⟩) broken

theorem ToldBy.unique (told : f.ToldBy fields) (told' : f'.ToldBy fields) : f = f' := by
  obtain ⟨text, found, bytes⟩ := told.file
  obtain ⟨text', found', bytes'⟩ := told'.file
  have line := told.line.symm.trans told'.line
  have tag := told.kind.symm.trans told'.kind
  have label := told.pattern.symm.trans told'.pattern
  obtain ⟨⟨file⟩, count, defect⟩ := f
  obtain ⟨⟨file'⟩, count', defect'⟩ := f'
  have same : Json.text text = .text text' := Option.some.inj (found.symm.trans found')
  cases same
  cases bytes.trans bytes'.symm
  have lines : count = count' := by
    cases count <;> cases count' <;> simp_all
  have defects : defect = defect' := Defect.unique (by simpa using tag)
    (Option.map_injective (fun _ _ => Json.text.inj) label)
  rw [lines, defects]

end Finding

namespace Report

variable {r r' : Report} {fields : List (String × Json)}

theorem toJson_told (textual : r.Textual) :
    ∃ fields, r.toJson? = some (.object fields) ∧ r.ToldBy fields := by
  obtain ⟨errors, whole, all⟩ := mapM_found fun f present => Finding.toJson_told (textual f present)
  exact ⟨_, by rw [toJson?, whole, Option.map_some], by simp, rfl, rfl, errors, rfl, all⟩

theorem toJson_none (broken : ¬r.Textual) : r.toJson? = none := by
  obtain ⟨f, present, broken⟩ : ∃ f ∈ r.findings, ¬f.file.Textual := by
    simpa [Textual] using broken
  rw [toJson?, mapM_missing present (Finding.toJson_none broken), Option.map_none]

theorem ToldBy.unique (told : r.ToldBy fields) (told' : r'.ToldBy fields) : r = r' := by
  obtain ⟨errors, found, all⟩ := told.errors
  obtain ⟨errors', found', all'⟩ := told'.errors
  have files := told.files.symm.trans told'.files
  have blocks := told.blocks.symm.trans told'.blocks
  have same : Json.array errors = .array errors' := Option.some.inj (found.symm.trans found')
  cases same
  have findings : r.findings = r'.findings := by
    refine List.left_unique_forall₂' ?_ all all'
    rintro f j f' ⟨fields, rfl, told⟩ ⟨fields', equal, told'⟩
    cases equal
    exact told.unique told'
  obtain ⟨filesScanned, codeBlocks, _⟩ := r
  obtain ⟨filesScanned', codeBlocks', _⟩ := r'
  simp_all

theorem writeJson_text {json : Json} (found : r.toJson? = some json) (before : List UInt8) :
    r.writeJson ⟨none, before⟩ =
      (⟨none, before ++ Text.encode (json.render 0 ++ ['\n'])⟩, none) := by
  rw [writeJson, found]
  simp [Sink.putAll_open, Json.pretty]

-- What is written for a report is one well-formed value and a line feed, and reading it back
-- tells all of the report; so no other report is written the same. Where a path is no text
-- nothing is written.
theorem writeJson_reads (r : Report) :
    (r.Textual → ∃ text fields, (∀ j, Json.Spelled j text ↔ j = .object fields) ∧
      Json.read? text = some (.object fields) ∧ r.ToldBy fields ∧
      (∀ before, r.writeJson ⟨none, before⟩ =
        (⟨none, before ++ Text.encode (text ++ ['\n'])⟩, none)) ∧
      ∀ r' : Report, r'.Textual →
        (r'.writeJson {}).1.written = (r.writeJson {}).1.written → r' = r) ∧
    (¬r.Textual → ∀ out, r.writeJson out = (out, some .pathNotUtf8)) := by
  constructor
  · intro textual
    obtain ⟨fields, found, told⟩ := toJson_told textual
    have spelled := Json.render_spelled (.object fields) 0
    have read := Json.read_spelled spelled
    have only : ∀ j, Json.Spelled j (Json.render 0 (.object fields)) ↔ j = .object fields := by
      intro j
      constructor
      · exact fun other => Json.spelled_unique other spelled
      · rintro rfl
        exact spelled
    refine ⟨_, fields, only, read, told, writeJson_text found, ?_⟩
    intro r' textual' same
    obtain ⟨fields', found', told'⟩ := toJson_told textual'
    rw [writeJson_text found, writeJson_text found'] at same
    have texts : Json.render 0 (.object fields') = Json.render 0 (.object fields) :=
      List.append_cancel_right (Text.encode_injective same)
    have spelled' := Json.render_spelled (.object fields') 0
    rw [texts] at spelled'
    cases Json.spelled_unique spelled' spelled
    exact told'.unique told
  · intro broken out
    rw [writeJson, toJson_none broken]

def quotedReport : Report :=
  ⟨2, 1, [⟨.ofString "docs/\"a\".md", some 3, .unclosedFence⟩,
    ⟨.ofString "docs/é.md", none, .forbiddenPattern "\\TODO\t"⟩]⟩

def brokenReport : Report := ⟨1, 0, [⟨⟨[0xff]⟩, none, .missingFrontmatter⟩]⟩

theorem quotedReport_reads :
    (∃ text fields, Json.read? text = some (.object fields) ∧ quotedReport.ToldBy fields ∧
      quotedReport.writeJson {} = (⟨none, Text.encode (text ++ ['\n'])⟩, none)) ∧
    brokenReport.writeJson {} = ({}, some .pathNotUtf8) := by
  have textual : quotedReport.Textual := by
    intro f present
    obtain ⟨text, equal⟩ : ∃ text, f.file = .ofString text := by
      rcases List.mem_pair.mp present with rfl | rfl <;> exact ⟨_, rfl⟩
    exact ⟨text, by rw [equal, Path.ofString]⟩
  have broken : ¬brokenReport.Textual := by
    intro all
    obtain ⟨text, found⟩ := (Path.textual_exact _).mp (all _ (.head _))
    cases found
  obtain ⟨text, fields, -, read, told, written, -⟩ := (writeJson_reads quotedReport).1 textual
  exact ⟨⟨text, fields, read, told, written []⟩, (writeJson_reads brokenReport).2 broken {}⟩

end Report

end ChapterCheck
