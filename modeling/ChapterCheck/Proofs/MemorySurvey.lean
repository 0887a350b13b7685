import ChapterCheck.Proofs.ChildListings
import ChapterCheck.Proofs.MemoryHistory

namespace ChapterCheck.MemoryTree

-- The way up from a path leads to the root of a survey through directories only, the root
-- among them.
inductive Under (t : MemoryTree) (root : Path) : Path → Prop where
  | direct (above : p.parent? = some r) (met : r.same root)
      (directory : t.find? r = some .directory) : Under t root p
  | further (above : p.parent? = some r) (directory : t.find? r = some .directory)
      (rest : Under t root r) : Under t root p

variable {t : MemoryTree} {root dir p q : Path} {node : Node}

theorem Under.respell (under : t.Under root p) (met : p.same q) : t.Under root q := by
  induction under generalizing q with
  | direct above equal directory =>
    obtain ⟨r, parent, same⟩ := Path.child_respell met ⟨_, above, Path.same_refl _⟩
    exact .direct parent (Path.same_trans same equal) ((find_same same).trans directory)
  | further above directory _ ih =>
    obtain ⟨r, parent, same⟩ := Path.child_respell met ⟨_, above, Path.same_refl _⟩
    exact .further parent ((find_same same).trans directory) (ih (Path.same_symm same))

theorem Under.lower (under : t.Under root p) : p.Below root := by
  induction under with
  | direct above met _ => exact .direct above met
  | further above _ _ ih => exact .further above ih

theorem entry_row (keyed : Keyed t.nodes) (listed : t.list dir = .ok entries) (e : Entry) :
    e ∈ entries ↔ ∃ node, (e.path.place, e.path, node) ∈ t.nodes ∧ node.kind = e.kind ∧
      ∃ r, e.path.parent? = some r ∧ r.same dir := by
  obtain ⟨-, rfl⟩ := list_listed listed
  obtain ⟨p, kind⟩ := e
  simp only [List.mem_map, Prod.exists, mem_childrenOf keyed, Entry.mk.injEq]
  constructor
  · intro held
    obtain ⟨q, node, ⟨row, child⟩, rfl, rfl⟩ := held
    exact ⟨node, row, rfl, child⟩
  · intro held
    obtain ⟨node, row, rfl, child⟩ := held
    exact ⟨p, node, ⟨row, child⟩, rfl, rfl⟩

theorem child_longer {r : Path} (above : p.parent? = some r) (met : r.same dir) :
    p.components.length = dir.components.length + 1 := by
  obtain ⟨c, grown, -⟩ := Path.parent_grown above
  rw [grown, Path.same_exact.mp met, List.length_append]
  rfl

theorem rows_bounded (nodes : List Row) :
    ∃ most, ∀ row ∈ nodes, row.2.1.components.length ≤ most := by
  induction nodes with
  | nil => exact ⟨0, by simp⟩
  | cons first rest ih =>
    obtain ⟨most, bound⟩ := ih
    refine ⟨max first.2.1.components.length most, ?_⟩
    intro row present
    rcases List.mem_cons.mp present with rfl | later
    · exact Nat.le_max_left _ _
    · exact Nat.le_trans (bound row later) (Nat.le_max_right _ _)

-- Every directory is longer than the one that lists it and no path is longer than the
-- longest row, so a walk ends.
theorem finite_below (keyed : Keyed t.nodes) (dir : Path) : t.contents.FiniteBelow dir := by
  obtain ⟨most, bound⟩ := rows_bounded t.nodes
  generalize measured : most + 1 - dir.components.length = left
  induction left using Nat.strongRecOn generalizing dir with
  | ind left ih =>
    cases listed : t.list dir with
    | error cause => exact .closed listed
    | ok entries =>
      refine .opened listed ?_
      intro e present _
      obtain ⟨node, row, -, r, above, met⟩ := (entry_row keyed listed e).mp present
      have longer := child_longer above met
      have short : e.path.components.length ≤ most := bound _ row
      exact ih _ (by omega) e.path rfl

theorem entry_under (keyed : Keyed t.nodes) (listed : t.list dir = .ok entries)
    (present : e ∈ entries) (held : dir = root ∨ t.Under root dir) : t.Under root e.path := by
  obtain ⟨node, row, kind, r, above, met⟩ := (entry_row keyed listed e).mp present
  have directory : t.find? r = some .directory := (find_same met).trans (list_listed listed).1
  rcases held with rfl | under
  · exact .direct above met directory
  · exact .further above directory (under.respell (Path.same_symm met))

theorem met_row (keyed : Keyed t.nodes) (reached : t.contents.Reaches root p) :
    p = root ∨ (p.place, p, .directory) ∈ t.nodes ∧ t.Under root p := by
  induction reached with
  | start => exact .inl rfl
  | @down d entries e _ listed present inner ih =>
    obtain ⟨node, row, kind, -⟩ := (entry_row keyed listed e).mp present
    have own : node = .directory := directory_kind.mp (kind.trans inner)
    exact .inr ⟨own ▸ row, entry_under keyed listed present (ih.imp_right And.right)⟩

theorem row_listed (keyed : Keyed t.nodes)
    (lists : ∀ d, t.contents.Reaches root d → ∃ entries, t.list d = .ok entries)
    (under : t.Under root p) (row : (q.place, q, node) ∈ t.nodes) (met : q.same p) :
    ∃ d entries, t.contents.Reaches root d ∧ t.list d = .ok entries ∧ ⟨q, node.kind⟩ ∈ entries := by
  induction under generalizing q node with
  | direct above equal directory =>
    obtain ⟨r, parent, same⟩ := Path.child_respell (Path.same_symm met) ⟨_, above, equal⟩
    obtain ⟨entries, listed⟩ := lists root .start
    exact ⟨root, entries, .start, listed,
      (entry_row keyed listed _).mpr ⟨node, row, rfl, r, parent, same⟩⟩
  | further above directory _ ih =>
    obtain ⟨r, again, held⟩ := row_of_find keyed directory
    obtain ⟨d, entries, reached, listed, present⟩ := ih held again
    have down : t.contents.Reaches root r := .down reached listed present rfl
    obtain ⟨inside, opened⟩ := lists r down
    obtain ⟨r', parent, same⟩ :=
      Path.child_respell (Path.same_symm met) ⟨_, above, Path.same_symm again⟩
    exact ⟨r, inside, down, opened,
      (entry_row keyed opened _).mpr ⟨node, row, rfl, r', parent, same⟩⟩

theorem lists_children (keyed : Keyed t.nodes) (root : Path) : t.contents.ListsChildren root := by
  intro d entries _ listed e present
  obtain ⟨-, -, -, above⟩ := (entry_row keyed listed e).mp present
  exact above

theorem lists_apart (keyed : Keyed t.nodes) (root : Path) : t.contents.ListsApart root :=
  fun _ _ _ listed => (list_entries keyed listed).1

theorem lists_once (keyed : Keyed t.nodes) (root : Path) : t.contents.ListsOnce root :=
  (lists_children keyed root).once (lists_apart keyed root)

def Blocked (steps : List Step) (root d : Path) : Prop :=
  (build steps).find? d = some .directory ∧ Refused steps d ∧ (build steps).Under root d

theorem blocked_met (reached : (build steps).contents.Reaches root d)
    (closed : (build steps).list d = .error cause) : d = root ∨ Blocked steps root d := by
  have keyed := build_keyed steps
  rcases met_row keyed reached with equal | held
  · exact .inl equal
  · have directory := find_row keyed held.1
    refine .inr ⟨directory, ?_, held.2⟩
    by_contra willing
    obtain ⟨entries, listed, -⟩ := (build_lists steps d).listed willing directory
    rw [listed] at closed
    cases closed

theorem blocked_stops (blocked : Blocked steps root d) :
    ∃ failure, (build steps).contents.survey root = .error failure := by
  obtain ⟨directory, ⟨q, given, refused⟩, under⟩ := blocked
  have keyed := build_keyed steps
  have finite := finite_below keyed root
  cases surveyed : (build steps).contents.survey root with
  | error failure => exact ⟨failure, rfl⟩
  | ok listings =>
    obtain ⟨p, same, row⟩ := row_of_find keyed directory
    have lists := fun d => ContentTree.survey_reached finite surveyed (d := d)
    obtain ⟨c, entries, reached, listed, present⟩ := row_listed keyed lists under row same
    obtain ⟨inside, opened⟩ := lists p (.down reached listed present rfl)
    have denied := (build_lists steps p).denied.mpr
      ⟨q, given, Path.same_trans refused (Path.same_symm same)⟩
    have answer : (build steps).list p = .ok inside := opened
    rw [denied] at answer
    cases answer

theorem document_found (keyed : Keyed t.nodes) (surveyed : t.contents.survey root = .ok listings)
    (q : Path) :
    (∃ p, t.contents.IsDocument root extension p ∧ p.same q) ↔
      ((∃ bytes, t.find? q = some (.file bytes)) ∨ t.find? q = some .unreadable) ∧
        t.Under root q ∧ q.Named extension := by
  have file : ((∃ bytes, t.find? q = some (.file bytes)) ∨ t.find? q = some .unreadable) ↔
      ∃ node, t.find? q = some node ∧ node.kind = .file := by
    simp only [file_kind]
    grind
  rw [file]
  constructor
  · intro document
    obtain ⟨p, ⟨d, entries, reached, listed, present, named⟩, met⟩ := document
    obtain ⟨node, row, kind, -⟩ := (entry_row keyed listed _).mp present
    have under := entry_under keyed listed present ((met_row keyed reached).imp_right And.right)
    exact ⟨⟨node, (find_same met).symm.trans (find_row keyed row), kind⟩, under.respell met,
      named.respell met⟩
  · intro held
    obtain ⟨⟨node, found, kind⟩, under, named⟩ := held
    obtain ⟨p, met, row⟩ := row_of_find keyed found
    have lists := fun d => ContentTree.survey_reached (finite_below keyed root) surveyed (d := d)
    obtain ⟨d, entries, reached, listed, present⟩ := row_listed keyed lists under row met
    rw [kind] at present
    exact ⟨p, ⟨d, entries, reached, listed, present, named.respell (Path.same_symm met)⟩, met⟩

theorem reached_lists (willing : ∀ q, .unlistable q ∉ steps)
    (directory : (build steps).find? root = some .directory)
    (reached : (build steps).contents.Reaches root d) :
    ∃ entries, (build steps).contents.list d = .ok entries := by
  have keyed := build_keyed steps
  have held : (build steps).find? d = some .directory := by
    rcases met_row keyed reached with rfl | below
    · exact directory
    · exact find_row keyed below.1
  have clear : ¬Refused steps d := by
    intro refused
    obtain ⟨q, given, -⟩ := refused
    exact willing q given
  obtain ⟨entries, listed, -⟩ := (build_lists steps d).listed clear held
  exact ⟨entries, listed⟩

theorem document_reads (readable : ∀ q, .unreadable q ∉ steps)
    (document : (build steps).contents.IsDocument root extension p) :
    ∃ bytes, (build steps).contents.read p = .ok bytes := by
  obtain ⟨d, entries, reached, listed, present, -⟩ := document
  rcases (entry_answers (build_keyed steps) listed present).1 rfl with read | refused
  · exact read
  · obtain ⟨q, given⟩ := unreadable_given ((read_exact _ p).denied.mp refused)
    exact absurd given (readable q)

-- A walk over a tree built by any steps ends, since no chain of directories, each inside the one
-- before, does not. It fails just where a directory refuses to be listed; otherwise it finds, once
-- each, the files with the extension that hang below the root by directories only.
theorem build_documents (steps : List Step) (dir : Path) (extension : String) :
    Acc (build steps).contents.Inside dir ∧
      ((∃ failure, (build steps).contents.documents dir extension = .error failure) ↔
        (∃ cause, (build steps).list dir = .error cause) ∨ ∃ d, Blocked steps dir d) ∧
      (∀ failure, (build steps).contents.documents dir extension = .error failure →
        ∃ d cause, failure = .unlistable d cause ∧ (build steps).list d = .error cause ∧
          (d = dir ∨ Blocked steps dir d)) ∧
      ∀ ps, (build steps).contents.documents dir extension = .ok ps →
        (ps.Pairwise fun p q => ¬p.same q) ∧
        ∀ q, (∃ p ∈ ps, p.same q) ↔
          ((∃ bytes, (build steps).find? q = some (.file bytes)) ∨
            (build steps).find? q = some .unreadable) ∧
          (build steps).Under dir q ∧ q.Named extension := by
  have keyed := build_keyed steps
  have finite := finite_below keyed dir
  have stops : ∀ failure, (build steps).contents.survey dir = .error failure →
      ∃ d cause, failure = .unlistable d cause ∧ (build steps).list d = .error cause ∧
        (d = dir ∨ Blocked steps dir d) := by
    intro failure failed
    obtain ⟨d, cause, rfl, reached, closed⟩ := ContentTree.survey_failed finite failed
    exact ⟨d, cause, rfl, closed, blocked_met reached closed⟩
  simp only [ContentTree.documents_failed]
  refine ⟨ContentTree.finite_accessible finite, ⟨?_, ?_⟩, stops, ?_⟩
  · intro failed
    obtain ⟨failure, failed⟩ := failed
    obtain ⟨d, cause, -, closed, equal | blocked⟩ := stops failure failed
    · exact .inl ⟨cause, equal ▸ closed⟩
    · exact .inr ⟨d, blocked⟩
  · intro failing
    rcases failing with closed | blocked
    · obtain ⟨cause, closed⟩ := closed
      exact ⟨_, ContentTree.survey_closed closed⟩
    · exact blocked_stops blocked.choose_spec
  · intro ps found
    obtain ⟨listings, surveyed, rfl⟩ := ContentTree.documents_found.mp found
    refine ⟨ContentTree.documents_apart finite (lists_once keyed dir) surveyed, ?_⟩
    intro q
    simp only [ContentTree.mem_documents finite surveyed]
    exact document_found keyed surveyed q

end ChapterCheck.MemoryTree
