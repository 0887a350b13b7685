import ChapterCheck.Proofs.FencePairing
import ChapterCheck.Proofs.MemorySurvey
import ChapterCheck.Validation
import Mathlib.Algebra.GroupWithZero.Nat

namespace ChapterCheck

def Document.expected (config : Config) (path : Path) (bytes : List UInt8) : List Finding :=
  let content := String.ofList (Text.decodeLossy bytes)
  let name := nameIn config.base path
  let marks := Fence.markerLines content
  (Frontmatter.check content).toList.map (fun issue => ⟨name, none, .ofIssue issue⟩) ++
    (if marks.length % 2 = 1 then marks.getLast?.toList else []).map
      (fun line => ⟨name, some line, .unclosedFence⟩) ++
    (config.patterns.filter (·.occursIn content)).map
      fun p => ⟨name, none, .forbiddenPattern p.label⟩

def Document.expectedBlocks (bytes : List UInt8) : Nat :=
  (Fence.markerLines (String.ofList (Text.decodeLossy bytes))).length / 2

namespace Validation

variable {tree : ContentTree} {config : Config} {listings : List Listing} {path : Path}
  {bytes : List UInt8}

theorem validate_failed {failure : Failure} (failed : tree.survey config.root = .error failure) :
    validate tree config = .error failure := by
  rw [validate, run, failed]
  rfl

theorem validate_surveyed (surveyed : tree.survey config.root = .ok listings) :
    validate tree config = ((documentsOf listings config.extension).mapM (judge tree config)).map
      fun outcomes => report ⟨listings, outcomes⟩ := by
  rw [validate, run, surveyed, Except.bind, judgeAll]
  cases (documentsOf listings config.extension).mapM (judge tree config) <;> rfl

theorem judge_unread {cause : IoError} (unread : tree.read path = .error cause) :
    judge tree config path = .error (.unreadable path cause) := by
  rw [judge, Document.load, unread]
  rfl

def judged (config : Config) (path : Path) (bytes : List UInt8) : Document × Outcome :=
  let document := ⟨path, Document.nameIn config.base path, String.ofList (Text.decodeLossy bytes)⟩
  (document, document.check config.patterns)

theorem judge_read (read : tree.read path = .ok bytes) :
    judge tree config path = .ok (judged config path bytes) := by
  rw [judge, Document.load, read]
  rfl

theorem judged_expected (config : Config) (path : Path) (bytes : List UInt8) :
    (judged config path bytes).2 =
      ⟨Document.expected config path bytes, Document.expectedBlocks bytes⟩ := by
  obtain ⟨blocks, unclosed⟩ := Fence.scan_counts (String.ofList (Text.decodeLossy bytes))
  simp only [judged, Document.check, Document.defects, Document.expected, Document.expectedBlocks,
    Pattern.scan, blocks, unclosed, List.map_append, List.map_map]
  split <;> rfl

def contentOf (tree : ContentTree) (path : Path) : List UInt8 := (tree.read path).toOption.getD []

theorem content_read (read : tree.read path = .ok bytes) : contentOf tree path = bytes := by
  rw [contentOf, read]
  rfl

theorem judge_same {other : ContentTree} (same : tree.read path = other.read path) :
    judge tree config path = judge other config path := by
  rw [judge, judge, Document.load, Document.load, same]

theorem judge_done (done : judge tree config path = .ok outcome) :
    tree.read path = .ok (contentOf tree path) := by
  cases read : tree.read path with
  | ok bytes => rw [content_read read]
  | error cause =>
    rw [judge_unread read] at done
    cases done

theorem judgeAll_failed {documents : List Path} {failure : Failure}
    (failed : documents.mapM (judge tree config) = .error failure) :
    ∃ p cause, failure = .unreadable p cause ∧ p ∈ documents ∧ tree.read p = .error cause := by
  rcases mapM_cases (judge tree config) documents with stopped | done
  · obtain ⟨p, present, failure', unread, whole⟩ := stopped
    rw [whole] at failed
    cases failed
    cases read : tree.read p with
    | ok bytes =>
      rw [judge_read read] at unread
      cases unread
    | error cause =>
      rw [judge_unread read] at unread
      cases unread
      exact ⟨p, cause, rfl, present, read⟩
  · have all : ∀ p ∈ documents, judge tree config p = .ok (judged config p (contentOf tree p)) := by
      intro p present
      obtain ⟨outcome, judged⟩ := done p present
      exact judge_read (judge_done judged)
    rw [mapM_done all] at failed
    cases failed

theorem mem_documentsOf (finite : tree.FiniteBelow config.root)
    (surveyed : tree.survey config.root = .ok listings) :
    path ∈ documentsOf listings config.extension ↔
      tree.IsDocument config.root config.extension path := by
  rw [documentsOf, List.mem_mergeSort, ContentTree.mem_documents finite surveyed]

theorem documentsOf_before (finite : tree.FiniteBelow config.root)
    (once : tree.ListsOnce config.root) (surveyed : tree.survey config.root = .ok listings) :
    (documentsOf listings config.extension).Pairwise Path.Before :=
  Path.sort_before (ContentTree.documents_apart finite once surveyed)

-- A report covers the documents under the root in path order, each taken once.
def Covers (tree : ContentTree) (config : Config) (report : Report) : Prop :=
  ∃ documents : List (Path × List UInt8),
    (documents.Pairwise fun a b => a.1.Before b.1) ∧
    (∀ p bytes, (p, bytes) ∈ documents ↔
      tree.IsDocument config.root config.extension p ∧ tree.read p = .ok bytes) ∧
    report.filesScanned = documents.length ∧
    report.codeBlocks = (documents.map fun (_, bytes) => Document.expectedBlocks bytes).sum ∧
    report.findings = documents.flatMap fun (p, bytes) => Document.expected config p bytes

-- Where everything that is met can be listed and everything to be checked can be read, there
-- is a report and it covers all documents.
theorem validate_report (tree : ContentTree) (config : Config)
    (finite : tree.FiniteBelow config.root) (once : tree.ListsOnce config.root)
    (lists : ∀ d, tree.Reaches config.root d → ∃ entries, tree.list d = .ok entries)
    (reads : ∀ p, tree.IsDocument config.root config.extension p →
      ∃ bytes, tree.read p = .ok bytes) :
    ∃ report, validate tree config = .ok report ∧ Covers tree config report := by
  obtain ⟨listings, surveyed⟩ := ContentTree.survey_total finite lists
  have readable : ∀ p ∈ documentsOf listings config.extension,
      tree.read p = .ok (contentOf tree p) := by
    intro p present
    obtain ⟨bytes, read⟩ := reads p ((mem_documentsOf finite surveyed).mp present)
    rw [content_read read, read]
  have judging : ∀ p ∈ documentsOf listings config.extension,
      judge tree config p = .ok (judged config p (contentOf tree p)) :=
    fun p present => judge_read (readable p present)
  have outcomes := mapM_done judging
  refine ⟨_, by rw [validate_surveyed surveyed, outcomes, Except.map],
    (documentsOf listings config.extension).map fun p => (p, contentOf tree p), ?_, ?_, ?_, ?_, ?_⟩
  · exact List.pairwise_map.mpr (documentsOf_before finite once surveyed)
  · intro p bytes
    rw [← mem_documentsOf finite surveyed]
    constructor
    · intro present
      obtain ⟨q, checked, same⟩ := List.mem_map.mp present
      cases same
      exact ⟨checked, readable p checked⟩
    · intro held
      obtain ⟨checked, read⟩ := held
      exact List.mem_map.mpr ⟨p, checked, by rw [content_read read]⟩
  · simp [report]
  · simp [report, List.sum_eq_foldl, List.foldl_map, judged_expected]
  · simp [report, List.flatMap_map, judged_expected]

-- Two documents, one of them with an unclosed fence, and a link that is passed over.
def handbook : List MemoryTree.Step :=
  [.file (.ofString "docs/guide/start.md") [0x60, 0x60, 0x60, 0x0a],
    .link (.ofString "docs/old.md"), .file (.ofString "docs/index.md") []]

def handbookConfig : Config := ⟨.ofString "docs", .empty, ".md", Pattern.builtin⟩

theorem handbook_report : ∃ report,
    validate (MemoryTree.build handbook).contents handbookConfig = .ok report ∧
      Covers (MemoryTree.build handbook).contents handbookConfig report :=
  validate_report (MemoryTree.build handbook).contents handbookConfig
    (MemoryTree.finite_below (MemoryTree.build_keyed handbook) _)
    (MemoryTree.lists_once (MemoryTree.build_keyed handbook) _)
    (fun _ => MemoryTree.reached_lists (by simp [handbook]) (by decide))
    (fun _ => MemoryTree.document_reads (by simp [handbook]))

end Validation
end ChapterCheck
