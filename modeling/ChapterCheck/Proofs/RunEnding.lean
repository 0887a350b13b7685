import ChapterCheck.Proofs.ValidationReport

namespace ChapterCheck

def ContentTree.Lists (tree : ContentTree) (root : Path) : Prop :=
  ∀ d, tree.Reaches root d → ∃ entries, tree.list d = .ok entries

theorem ContentTree.Lists.willing {tree : ContentTree} (lists : tree.Lists root)
    (met : tree.Reaches root d) : tree.list d ≠ .error cause := by
  obtain ⟨entries, listed⟩ := lists d met
  rw [listed]
  nofun

namespace Validation

variable {tree : ContentTree} {config : Config} {listings : List Listing}

def Reads (tree : ContentTree) (config : Config) : Prop :=
  ∀ p, tree.IsDocument config.root config.extension p → ∃ bytes, tree.read p = .ok bytes

theorem Reads.willing (reads : Reads tree config)
    (document : tree.IsDocument config.root config.extension p) : tree.read p ≠ .error cause := by
  obtain ⟨bytes, read⟩ := reads p document
  rw [read]
  nofun

def reportOf (config : Config) (held : List (Path × List UInt8)) : Report :=
  { filesScanned := held.length
    codeBlocks := (held.map fun (_, bytes) => Document.expectedBlocks bytes).sum
    findings := held.flatMap fun (p, bytes) => Document.expected config p bytes }

def holding (tree : ContentTree) (documents : List Path) : List (Path × List UInt8) :=
  documents.map fun p => (p, contentOf tree p)

theorem mem_holding {documents : List Path}
    (readable : ∀ p ∈ documents, tree.read p = .ok (contentOf tree p)) (p : Path)
    (bytes : List UInt8) :
    (p, bytes) ∈ holding tree documents ↔ p ∈ documents ∧ tree.read p = .ok bytes := by
  constructor
  · intro held
    obtain ⟨q, present, equal⟩ := List.mem_map.mp held
    cases equal
    exact ⟨present, readable p present⟩
  · intro held
    obtain ⟨present, read⟩ := held
    exact List.mem_map.mpr ⟨p, present, by rw [content_read read]⟩

theorem validate_read (surveyed : tree.survey config.root = .ok listings)
    (readable : ∀ p ∈ documentsOf listings config.extension,
      tree.read p = .ok (contentOf tree p)) :
    validate tree config =
      .ok (reportOf config (holding tree (documentsOf listings config.extension))) := by
  have judging : ∀ p ∈ documentsOf listings config.extension,
      judge tree config p = .ok (judged config p (contentOf tree p)) :=
    fun p present => judge_read (readable p present)
  rw [validate_surveyed surveyed, mapM_done judging]
  simp [report, reportOf, holding, Except.map, List.sum_eq_foldl, List.foldl_map, List.flatMap_map,
    judged_expected]

theorem validate_split (surveyed : tree.survey config.root = .ok listings) :
    (∃ p ∈ documentsOf listings config.extension, ∃ cause, tree.read p = .error cause ∧
        validate tree config = .error (.unreadable p cause)) ∨
      (∀ p ∈ documentsOf listings config.extension, tree.read p = .ok (contentOf tree p)) ∧
        validate tree config =
          .ok (reportOf config (holding tree (documentsOf listings config.extension))) := by
  rcases mapM_cases (judge tree config) (documentsOf listings config.extension) with
    stopped | done
  · obtain ⟨-, -, failure, -, failed⟩ := stopped
    obtain ⟨p, cause, rfl, present, unread⟩ := judgeAll_failed failed
    refine .inl ⟨p, present, cause, unread, ?_⟩
    rw [validate_surveyed surveyed, failed]
    rfl
  · have readable : ∀ p ∈ documentsOf listings config.extension,
        tree.read p = .ok (contentOf tree p) := by
      intro p present
      obtain ⟨outcome, judged⟩ := done p present
      exact judge_done judged
    exact .inr ⟨readable, validate_read surveyed readable⟩

theorem validate_done {report : Report} (done : validate tree config = .ok report) :
    ∃ listings, tree.survey config.root = .ok listings ∧
      (∀ p ∈ documentsOf listings config.extension, tree.read p = .ok (contentOf tree p)) ∧
      report = reportOf config (holding tree (documentsOf listings config.extension)) := by
  cases surveyed : tree.survey config.root with
  | error failure =>
    rw [validate_failed surveyed] at done
    cases done
  | ok listings =>
    rcases validate_split surveyed with stopped | whole
    · obtain ⟨p, -, cause, -, failed⟩ := stopped
      rw [failed] at done
      cases done
    · obtain ⟨readable, told⟩ := whole
      rw [told] at done
      exact ⟨listings, rfl, readable, (Except.ok.inj done).symm⟩

-- How a run ends: at a directory that cannot be listed, if there is one; else at a document
-- that cannot be read, if there is one; else with the report on all documents. A failure
-- carries the cause that its own path gave.
inductive Ends (tree : ContentTree) (config : Config) : Except Failure Report → Prop where
  | unlistable (met : tree.Reaches config.root d) (closed : tree.list d = .error cause) :
      Ends tree config (.error (.unlistable d cause))
  | unreadable (lists : tree.Lists config.root)
      (document : tree.IsDocument config.root config.extension p)
      (unread : tree.read p = .error cause) : Ends tree config (.error (.unreadable p cause))
  | reported (lists : tree.Lists config.root) (reads : Reads tree config)
      (all : ∀ p bytes, (p, bytes) ∈ held ↔
        tree.IsDocument config.root config.extension p ∧ tree.read p = .ok bytes) :
      Ends tree config (.ok (reportOf config held))

theorem validate_ends (finite : tree.FiniteBelow config.root) :
    Ends tree config (validate tree config) := by
  cases surveyed : tree.survey config.root with
  | error failure =>
    obtain ⟨d, cause, rfl, met, closed⟩ := ContentTree.survey_failed finite surveyed
    rw [validate_failed surveyed]
    exact .unlistable met closed
  | ok listings =>
    have lists : tree.Lists config.root :=
      fun d met => ContentTree.survey_reached finite surveyed met
    have all : ∀ p, p ∈ documentsOf listings config.extension ↔
        tree.IsDocument config.root config.extension p :=
      fun _ => mem_documentsOf finite surveyed
    rcases validate_split surveyed with stopped | whole
    · obtain ⟨p, present, cause, unread, failed⟩ := stopped
      rw [failed]
      exact .unreadable lists ((all p).mp present) unread
    · obtain ⟨readable, told⟩ := whole
      rw [told]
      refine .reported lists (fun p document => ⟨_, readable p ((all p).mpr document)⟩) ?_
      intro p bytes
      rw [mem_holding readable, all]

theorem Ends.barred {outcome : Except Failure Report} (ends : Ends tree config outcome)
    (met : tree.Reaches config.root d) (closed : tree.list d = .error cause) :
    ∃ d cause, outcome = .error (.unlistable d cause) := by
  have stuck : ¬tree.Lists config.root := fun lists => lists.willing met closed
  cases ends with
  | unlistable met closed => exact ⟨_, _, rfl⟩
  | unreadable lists => exact absurd lists stuck
  | reported lists => exact absurd lists stuck

theorem Ends.lost {outcome : Except Failure Report} (ends : Ends tree config outcome)
    (lists : tree.Lists config.root) (document : tree.IsDocument config.root config.extension p)
    (unread : tree.read p = .error cause) : ∃ p cause, outcome = .error (.unreadable p cause) := by
  cases ends with
  | unlistable met closed => exact absurd closed (lists.willing met)
  | unreadable => exact ⟨_, _, rfl⟩
  | reported _ reads => exact absurd unread (reads.willing document)

theorem Ends.done {outcome : Except Failure Report} (ends : Ends tree config outcome)
    (lists : tree.Lists config.root) (reads : Reads tree config) :
    ∃ report, outcome = .ok report := by
  cases ends with
  | unlistable met closed => exact absurd closed (lists.willing met)
  | unreadable _ document unread => exact absurd unread (reads.willing document)
  | reported => exact ⟨_, rfl⟩

theorem build_reports {steps : List MemoryTree.Step} (willing : ∀ q, .unlistable q ∉ steps)
    (readable : ∀ q, .unreadable q ∉ steps)
    (directory : (MemoryTree.build steps).find? config.root = some .directory) :
    ∃ report, validate (MemoryTree.build steps).contents config = .ok report := by
  have ends : Ends (MemoryTree.build steps).contents config _ :=
    validate_ends (MemoryTree.finite_below (MemoryTree.build_keyed steps) _)
  exact ends.done (fun _ => MemoryTree.reached_lists willing directory)
    (fun _ => MemoryTree.document_reads readable)

-- A run fails to list just where some directory that is met cannot be listed, whatever there is to
-- read; it fails to read just where all directories can be listed and some document cannot be
-- read; everywhere else it reports, whatever the documents hold.
theorem validate_outcomes (tree : ContentTree) (config : Config)
    (finite : tree.FiniteBelow config.root) :
    ((∃ d cause, validate tree config = .error (.unlistable d cause)) ↔
        ∃ d cause, tree.Reaches config.root d ∧ tree.list d = .error cause) ∧
      ((∃ p cause, validate tree config = .error (.unreadable p cause)) ↔
        tree.Lists config.root ∧
          ∃ p cause, tree.IsDocument config.root config.extension p ∧ tree.read p = .error cause) ∧
      ((∃ report, validate tree config = .ok report) ↔
        tree.Lists config.root ∧ Reads tree config) ∧
      (∀ d cause, validate tree config = .error (.unlistable d cause) →
        tree.Reaches config.root d ∧ tree.list d = .error cause) ∧
      ∀ p cause, validate tree config = .error (.unreadable p cause) →
        tree.IsDocument config.root config.extension p ∧ tree.read p = .error cause := by
  have ends : Ends tree config (validate tree config) := validate_ends finite
  generalize validate tree config = outcome at ends
  refine ⟨⟨?_, ?_⟩, ⟨?_, ?_⟩, ⟨?_, ?_⟩, ?_, ?_⟩
  · rintro ⟨d, cause, rfl⟩
    cases ends with
    | unlistable met closed => exact ⟨d, cause, met, closed⟩
  · rintro ⟨d, cause, met, closed⟩
    exact ends.barred met closed
  · rintro ⟨p, cause, rfl⟩
    cases ends with
    | unreadable lists document unread => exact ⟨lists, p, cause, document, unread⟩
  · rintro ⟨lists, p, cause, document, unread⟩
    exact ends.lost lists document unread
  · rintro ⟨report, rfl⟩
    cases ends with
    | reported lists reads => exact ⟨lists, reads⟩
  · rintro ⟨lists, reads⟩
    exact ends.done lists reads
  · rintro d cause rfl
    cases ends with
    | unlistable met closed => exact ⟨met, closed⟩
  · rintro p cause rfl
    cases ends with
    | unreadable _ document unread => exact ⟨document, unread⟩

def sealedHandbook : List MemoryTree.Step :=
  handbook ++ [.unreadable (.ofString "docs/guide/end.md"), .unlistable (.ofString "docs/drafts")]

theorem sealedHandbook_barred : ∃ d cause,
    validate (MemoryTree.build sealedHandbook).contents handbookConfig =
      .error (.unlistable d cause) :=
  have keyed := MemoryTree.build_keyed sealedHandbook
  (validate_outcomes (MemoryTree.build sealedHandbook).contents handbookConfig
    (MemoryTree.finite_below keyed _)).1.mpr
      ⟨_, _, .down .start (e := ⟨.ofString "docs/drafts", .directory⟩) rfl (by decide) rfl, rfl⟩

end Validation
end ChapterCheck
