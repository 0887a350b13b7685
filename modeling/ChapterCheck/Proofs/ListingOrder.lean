import ChapterCheck.Proofs.ValidationReport
import Mathlib.Data.List.Perm.Basic

namespace ChapterCheck

namespace ContentTree

inductive ListsAlike (left right : ContentTree) (d : Path) : Prop where
  | both (listed : left.list d = .ok entries) (listed' : right.list d = .ok entries')
      (perm : entries.Perm entries') : ListsAlike left right d
  | neither (closed : left.list d = .error cause) (closed' : right.list d = .error cause') :
      ListsAlike left right d

variable {left right : ContentTree} {dir : Path}

theorem ListsAlike.closes (alike : ListsAlike left right d) (failed : left.list d = .error cause) :
    ∃ cause', right.list d = .error cause' := by
  cases alike with
  | both listed listed' perm =>
    rw [failed] at listed
    cases listed
  | neither closed closed' => exact ⟨_, closed'⟩

theorem ListsAlike.opens (alike : ListsAlike left right d) (opened : left.list d = .ok entries) :
    ∃ entries', right.list d = .ok entries' ∧ entries.Perm entries' := by
  cases alike with
  | neither closed closed' =>
    rw [opened] at closed
    cases closed
  | both listed listed' perm =>
    rw [opened] at listed
    cases listed
    exact ⟨_, listed', perm⟩

theorem alike_inside (alike : ∀ d, left.Reaches dir d → ListsAlike left right d)
    (listed : left.list dir = .ok entries) (present : e ∈ entries) (inner : e.kind = .directory) :
    ∀ d, left.Reaches e.path d → ListsAlike left right d :=
  fun d below => alike d (.inside listed present inner below)

theorem directories_perm (perm : List.Perm entries entries') :
    (directoriesOf entries).Perm (directoriesOf entries') :=
  (perm.filter _).map _

theorem alike_finite (finite : left.FiniteBelow dir)
    (alike : ∀ d, left.Reaches dir d → ListsAlike left right d) : right.FiniteBelow dir := by
  induction finite with
  | @closed dir cause failed =>
    obtain ⟨cause', closed⟩ := (alike dir .start).closes failed
    exact .closed closed
  | @opened dir entries listed inside ih =>
    obtain ⟨entries', listed', perm⟩ := (alike dir .start).opens listed
    refine .opened listed' ?_
    intro e present inner
    have present := perm.mem_iff.mpr present
    exact ih e present inner (alike_inside alike listed present inner)

inductive SurveysAlike (left right : ContentTree) (dir : Path) : Prop where
  | both (surveyed : left.survey dir = .ok listings) (surveyed' : right.survey dir = .ok listings')
      (perm : (entriesOf listings).Perm (entriesOf listings')) : SurveysAlike left right dir
  | neither {failure failure' : Failure} (stopped : left.survey dir = .error failure)
      (stopped' : right.survey dir = .error failure') : SurveysAlike left right dir

theorem SurveysAlike.fails (alike : SurveysAlike left right dir) :
    (∃ failure, left.survey dir = .error failure) ↔ ∃ failure, right.survey dir = .error failure := by
  cases alike with
  | neither stopped stopped' => exact ⟨fun _ => ⟨_, stopped'⟩, fun _ => ⟨_, stopped⟩⟩
  | both surveyed surveyed' _ => simp [surveyed, surveyed']

theorem SurveysAlike.meets (alike : SurveysAlike left right dir) :
    (entriesOf (left.found dir)).Perm (entriesOf (right.found dir)) := by
  cases alike with
  | neither stopped stopped' =>
    rw [found, found, stopped, stopped']
    exact .refl _
  | both surveyed surveyed' perm =>
    rw [survey_found surveyed, survey_found surveyed']
    exact perm

theorem opened_alike (listed : left.list dir = .ok entries) (listed' : right.list dir = .ok entries')
    (perm : List.Perm entries entries')
    (inside : ∀ e ∈ entries, e.kind = .directory → left.FiniteBelow e.path)
    (inside' : ∀ e ∈ entries', e.kind = .directory → right.FiniteBelow e.path)
    (parts : ∀ e ∈ entries, e.kind = .directory → SurveysAlike left right e.path) :
    SurveysAlike left right dir := by
  -- Where one survey fails inside a directory, so does the other.
  rcases survey_cases listed inside with stopped | done
  · obtain ⟨e, present, inner, failure, fails, whole⟩ := stopped
    obtain ⟨failure', fails'⟩ := (parts e present inner).fails.mp ⟨failure, fails⟩
    rcases survey_cases listed' inside' with stopped' | done'
    · obtain ⟨-, -, -, other, -, whole'⟩ := stopped'
      exact .neither whole whole'
    · rw [done'.1 e (perm.mem_iff.mp present) inner] at fails'
      cases fails'
  · rcases survey_cases listed' inside' with stopped' | done'
    · obtain ⟨e, present', inner, failure', fails', -⟩ := stopped'
      have present := perm.mem_iff.mpr present'
      obtain ⟨failure, fails⟩ := (parts e present inner).fails.mpr ⟨failure', fails'⟩
      rw [done.1 e present inner] at fails
      cases fails
    · refine .both done.2 done'.2 ?_
      rw [entriesOf_cons, entriesOf_cons, entriesOf_flatMap, entriesOf_flatMap]
      refine perm.append (List.Perm.flatMap (directories_perm perm) ?_)
      intro d directory
      obtain ⟨e, present, inner, rfl⟩ := mem_directoriesOf.mp directory
      exact (parts e present inner).meets

theorem survey_alike (finite : left.FiniteBelow dir)
    (alike : ∀ d, left.Reaches dir d → ListsAlike left right d) : SurveysAlike left right dir := by
  induction finite with
  | @closed dir cause failed =>
    obtain ⟨cause', closed⟩ := (alike dir .start).closes failed
    exact .neither (survey_closed failed) (survey_closed closed)
  | @opened dir entries listed inside ih =>
    have below := fun e present inner => alike_inside (e := e) alike listed present inner
    obtain ⟨entries', listed', perm⟩ := (alike dir .start).opens listed
    apply opened_alike listed listed' perm inside
    · intro e present inner
      have present := perm.mem_iff.mpr present
      exact alike_finite (inside e present inner) (below e present inner)
    · intro e present inner
      exact ih e present inner (below e present inner)

end ContentTree

namespace MemoryTree

variable {t t' : MemoryTree}

theorem find_held (keyed : Keyed t.nodes) (keyed' : Keyed t'.nodes)
    (held : ∀ row ∈ t.nodes, row ∈ t'.nodes) (found : t.find? p = some node) :
    t'.find? p = some node := by
  obtain ⟨q, met, row⟩ := row_of_find keyed found
  rw [← find_same met]
  exact find_row keyed' (held _ row)

theorem find_perm (keyed : Keyed t.nodes) (keyed' : Keyed t'.nodes) (rows : t.nodes.Perm t'.nodes)
    (p : Path) : t.find? p = t'.find? p := by
  apply Option.ext
  intro node
  constructor
  · exact find_held keyed keyed' fun row present => rows.mem_iff.mp present
  · exact find_held keyed' keyed fun row present => rows.mem_iff.mpr present

theorem list_perm (keyed : Keyed t.nodes) (keyed' : Keyed t'.nodes) (rows : t.nodes.Perm t'.nodes)
    (refusing : t.refusing.Perm t'.refusing) (dir : Path) :
    ContentTree.ListsAlike t.contents t'.contents dir := by
  have same := find_perm keyed keyed' rows dir
  by_cases refused : t.refusing.any (·.same dir) = true
  · have refused' : t'.refusing.any (·.same dir) = true := by rwa [← refusing.any_eq]
    exact .neither (list_refused refused) (list_refused refused')
  · have answer := list_willing refused
    have willing' : ¬t'.refusing.any (·.same dir) = true := by rwa [← refusing.any_eq]
    have answer' := list_willing willing'
    rw [← same] at answer'
    cases found : t.find? dir with
    | none =>
      rw [found] at answer answer'
      exact .neither answer answer'
    | some node =>
      rw [found] at answer answer'
      cases node with
      | directory => exact .both answer answer' (((rows.filter _).map _).map _)
      | file content => exact .neither answer answer'
      | unreadable => exact .neither answer answer'
      | link => exact .neither answer answer'

theorem read_perm (keyed : Keyed t.nodes) (keyed' : Keyed t'.nodes) (rows : t.nodes.Perm t'.nodes)
    (p : Path) : t.read p = t'.read p := by
  rw [read, read, find_perm keyed keyed' rows]

end MemoryTree

namespace Validation

variable {left right : ContentTree} {config : Config} {listings listings' : List Listing}

theorem documentsOf_perm (finite : left.FiniteBelow config.root) (once : left.ListsOnce config.root)
    (surveyed : left.survey config.root = .ok listings)
    (perm : (ContentTree.entriesOf listings).Perm (ContentTree.entriesOf listings')) :
    documentsOf listings config.extension = documentsOf listings' config.extension := by
  apply Path.sort_perm (ContentTree.documents_apart finite once surveyed)
  rw [ContentTree.documents_flat, ContentTree.documents_flat]
  exact (perm.filter _).map _

theorem judgeAll_same (documents : List Path)
    (same : ∀ p ∈ documents, left.read p = right.read p) :
    documents.mapM (judge left config) = documents.mapM (judge right config) :=
  mapM_congr fun p present => judge_same (same p present)

-- A run depends only on what is met: on which entries each directory lists, in no order, and
-- on the bytes of the documents. Trees that agree there give the same report, or both fail
-- to list, or both fail to read. Where several calls fail, the two may tell of different ones.
theorem validate_alike (left right : ContentTree) (config : Config)
    (finite : left.FiniteBelow config.root) (once : left.ListsOnce config.root)
    (lists : ∀ d, left.Reaches config.root d → ContentTree.ListsAlike left right d)
    (reads : ∀ p, left.IsDocument config.root config.extension p → left.read p = right.read p) :
    (∃ report, validate left config = .ok report ∧ validate right config = .ok report) ∨
      (∃ d cause d' cause', validate left config = .error (.unlistable d cause) ∧
        validate right config = .error (.unlistable d' cause')) ∨
      ∃ p cause p' cause', validate left config = .error (.unreadable p cause) ∧
        validate right config = .error (.unreadable p' cause') := by
  cases ContentTree.survey_alike finite lists with
  | neither stopped stopped' =>
    have finite' := ContentTree.alike_finite finite lists
    obtain ⟨d, cause, rfl, -, -⟩ := ContentTree.survey_failed finite stopped
    obtain ⟨d', cause', rfl, -, -⟩ := ContentTree.survey_failed finite' stopped'
    exact .inr (.inl ⟨d, cause, d', cause', validate_failed stopped, validate_failed stopped'⟩)
  | @both listings listings' surveyed surveyed' perm =>
    have documents := documentsOf_perm finite once surveyed perm
    have same : ∀ p ∈ documentsOf listings config.extension, left.read p = right.read p :=
      fun p present => reads p ((mem_documentsOf finite surveyed).mp present)
    rw [validate_surveyed surveyed, validate_surveyed surveyed', ← documents,
      judgeAll_same _ same]
    cases judged : (documentsOf listings config.extension).mapM (judge right config) with
    | ok outcomes => exact .inl ⟨_, rfl, rfl⟩
    | error failure =>
      obtain ⟨p, cause, rfl, -, -⟩ := judgeAll_failed judged
      exact .inr (.inr ⟨p, cause, p, cause, rfl, rfl⟩)

theorem handbook_alike :
    (∃ report, validate (MemoryTree.build handbook).contents handbookConfig = .ok report ∧
      validate (MemoryTree.build handbook.reverse).contents handbookConfig = .ok report) ∨
    (∃ d cause d' cause',
      validate (MemoryTree.build handbook).contents handbookConfig = .error (.unlistable d cause) ∧
      validate (MemoryTree.build handbook.reverse).contents handbookConfig =
        .error (.unlistable d' cause')) ∨
    ∃ p cause p' cause',
      validate (MemoryTree.build handbook).contents handbookConfig = .error (.unreadable p cause) ∧
      validate (MemoryTree.build handbook.reverse).contents handbookConfig =
        .error (.unreadable p' cause') := by
  have keyed := MemoryTree.build_keyed handbook
  have keyed' := MemoryTree.build_keyed handbook.reverse
  have rows : (MemoryTree.build handbook).nodes.Perm (MemoryTree.build handbook.reverse).nodes := by
    decide
  have refusing : (MemoryTree.build handbook).refusing.Perm
      (MemoryTree.build handbook.reverse).refusing := by
    decide
  exact validate_alike (MemoryTree.build handbook).contents
    (MemoryTree.build handbook.reverse).contents handbookConfig
    (MemoryTree.finite_below keyed _) (MemoryTree.lists_once keyed _)
    (fun d _ => MemoryTree.list_perm keyed keyed' rows refusing d)
    (fun p _ => MemoryTree.read_perm keyed keyed' rows p)

end Validation
end ChapterCheck
