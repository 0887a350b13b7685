import ChapterCheck.Proofs.RunEnding

namespace ChapterCheck

namespace ContentTree

-- One tree lists what another does and, behind it, entries that are no directories.
structure ListsMore (left right : ContentTree) (more : Path → List Entry) (dir : Path) : Prop where
  plain : ∀ d, ∀ e ∈ more d, e.kind ≠ .directory
  lists : ∀ d, left.Reaches dir d → right.list d = (left.list d).map (· ++ more d)

def extended (more : Path → List Entry) (l : Listing) : Listing :=
  ⟨l.directory, l.entries ++ more l.directory⟩

variable {left right : ContentTree} {more : Path → List Entry} {dir : Path} {entries : List Entry}
  {e : Entry}

theorem ListsMore.inside (grown : ListsMore left right more dir)
    (listed : left.list dir = .ok entries) (present : e ∈ entries) (inner : e.kind = .directory) :
    ListsMore left right more e.path :=
  ⟨grown.plain, fun d below => grown.lists d (.inside listed present inner below)⟩

theorem ListsMore.opened (grown : ListsMore left right more dir)
    (listed : left.list dir = .ok entries) : right.list dir = .ok (entries ++ more dir) := by
  rw [grown.lists dir .start, listed]
  rfl

theorem directoriesOf_more (plain : ∀ e ∈ extra, e.kind ≠ .directory) (entries : List Entry) :
    directoriesOf (entries ++ extra) = directoriesOf entries := by
  have flat : extra.filter (·.kind = .directory) = [] := by
    simpa [List.filter_eq_nil_iff] using plain
  simp [directoriesOf, flat]

theorem survey_more (finite : left.FiniteBelow dir) (grown : ListsMore left right more dir) :
    right.FiniteBelow dir ∧
      right.survey dir = (left.survey dir).map (List.map (extended more)) := by
  induction finite with
  | @closed dir cause failed =>
    have closed : right.list dir = .error cause := by
      rw [grown.lists dir .start, failed]
      rfl
    rw [survey_closed failed, survey_closed closed]
    exact ⟨.closed closed, rfl⟩
  | @opened dir entries listed inside ih =>
    have opened := grown.opened listed
    have below : ∀ e ∈ entries, e.kind = .directory → ListsMore left right more e.path :=
      fun e present inner => grown.inside listed present inner
    have within : ∀ e ∈ entries ++ more dir, e.kind = .directory → e ∈ entries := by
      intro e present inner
      rcases List.mem_append.mp present with old | new
      · exact old
      · exact absurd inner (grown.plain dir e new)
    have finite : ∀ e ∈ entries ++ more dir, e.kind = .directory → right.FiniteBelow e.path := by
      intro e present inner
      have present := within e present inner
      exact (ih e present inner (below e present inner)).1
    have parts : ∀ d ∈ directoriesOf entries,
        right.survey d = (left.survey d).map (List.map (extended more)) := by
      intro d directory
      obtain ⟨e, present, inner, rfl⟩ := mem_directoriesOf.mp directory
      exact (ih e present inner (below e present inner)).2
    refine ⟨.opened opened finite, ?_⟩
    rw [survey_opened opened finite, survey_opened listed inside,
      directoriesOf_more (grown.plain dir), mapM_congr parts, mapM_map]
    cases (directoriesOf entries).mapM left.survey with
    | error failure => rfl
    | ok found => simp [Except.map, extended, List.map_flatten]

end ContentTree

namespace MemoryTree

variable {t : MemoryTree} {nodes : List Row} {p q dir root : Path} {node : Node}

theorem insertAt_fresh (absent : nodes.lookup place = none) :
    insertAt place p node nodes = nodes ++ [(place, p, node)] := by
  induction nodes with
  | nil => rfl
  | cons row rest ih =>
    obtain ⟨held, q, old⟩ := row
    by_cases here : place = held
    · subst here
      simp at absent
    · rw [lookup_apart (Ne.symm here)] at absent
      simp [insertAt, here, ih absent]

theorem insertAt_held (found : (nodes.lookup place).map Prod.snd = some node) :
    insertAt place p node nodes = nodes := by
  induction nodes with
  | nil => cases found
  | cons row rest ih =>
    obtain ⟨held, q, old⟩ := row
    by_cases here : place = held
    · subst here
      simp only [List.lookup_cons_self, Option.map_some, Option.some.injEq] at found
      simp [insertAt, found]
    · rw [lookup_apart (Ne.symm here)] at found
      simp [insertAt, here, ih found]

structure Free (t : MemoryTree) (p : Path) : Prop where
  absent : t.find? p = none
  above : ∀ q, q ≠ .empty → p.Below q → t.find? q = some .directory

theorem above_climbed (climbed : ∀ a ∈ p.ancestors.takeWhile (fun q => q.bytes != []),
    t.find? a = some .directory) (q : Path) (filled : q ≠ .empty) (below : p.Below q) :
    t.find? q = some .directory := by
  obtain ⟨a, present, met⟩ := Path.ancestors_exact.mpr ⟨filled, below⟩
  rw [← find_same met]
  exact climbed a present

theorem put_free (free : t.Free p) (node : Node) :
    (t.put p node).nodes = t.nodes ++ [(p.place, p, node)] := by
  have climbed : ∀ a ∈ p.ancestors.takeWhile (fun q => q.bytes != []),
      t.find? a = some .directory := by
    intro a present
    obtain ⟨filled, below⟩ := Path.ancestors_exact.mp ⟨a, present, Path.same_refl a⟩
    exact free.above a filled below
  have kept : ∀ above : List Path, (∀ a ∈ above, t.find? a = some .directory) →
      above.foldl (fun nodes q => insert q .directory nodes) t.nodes = t.nodes := by
    intro above found
    induction above with
    | nil => rfl
    | cons a rest ih =>
      have here : insert a .directory t.nodes = t.nodes :=
        insertAt_held (found a List.mem_cons_self)
      rw [List.foldl_cons, here]
      exact ih fun b later => found b (List.mem_cons_of_mem _ later)
  simp only [put, kept _ climbed]
  exact insertAt_fresh (Option.map_eq_none_iff.mp free.absent)

theorem find_beside (free : t.Free p) (apart : ¬p.same q) :
    (t.put p node).find? q = t.find? q := by
  obtain ⟨-, above, other⟩ := find_put t p q node
  by_cases lower : q ≠ .empty ∧ p.Below q
  · rw [above apart lower, free.above q lower.1 lower.2]
  · exact other apart lower

theorem read_put (t : MemoryTree) (p : Path) (bytes : List UInt8) :
    (t.put p (.file bytes)).read p = .ok bytes := by
  rw [read, (find_put t p p _).1 (Path.same_refl p)]

theorem read_beside (free : t.Free p) (apart : ¬p.same q) :
    (t.put p node).read q = t.read q := by
  rw [read, read, find_beside free apart]

def added (p : Path) (node : Node) (dir : Path) : List Entry :=
  if Path.above? p.place = some dir.place then [⟨p, node.kind⟩] else []

theorem mem_added {e : Entry} : e ∈ added p node dir ↔
    e = ⟨p, node.kind⟩ ∧ ∃ r, p.parent? = some r ∧ r.same dir := by
  rw [added, ← Path.above_child]
  split <;> simp_all

theorem list_added (free : t.Free p) (apart : ¬p.same dir) :
    (t.put p node).list dir = (t.list dir).map (· ++ added p node dir) := by
  have children : (t.put p node).childrenOf dir =
      t.childrenOf dir ++ if Path.above? p.place = some dir.place then [(p, node)] else [] := by
    by_cases child : Path.above? p.place = some dir.place
    · simp [childrenOf, put_free free, child]
    · simp [childrenOf, put_free free, child]
  have refusing : (t.put p node).refusing = t.refusing := rfl
  by_cases refused : t.refusing.any (·.same dir) = true
  · rw [list_refused refused, list_refused (by rwa [refusing])]
    rfl
  · rw [list_willing refused, list_willing (by rwa [refusing]), find_beside free apart]
    cases t.find? dir with
    | none => rfl
    | some held =>
      cases held with
      | directory =>
        simp only [children, Except.map, added, List.map_append]
        split <;> rfl
      | file content => rfl
      | unreadable => rfl
      | link => rfl

theorem document_held (keyed : Keyed t.nodes)
    (document : t.contents.IsDocument root extension q) : ∃ node, t.find? q = some node := by
  obtain ⟨d, entries, -, listed, present, -⟩ := document
  obtain ⟨node, row, -⟩ := (entry_row keyed listed _).mp present
  exact ⟨node, find_row keyed row⟩

theorem held_apart (free : t.Free p) (held : ∃ node, t.find? q = some node) : ¬p.same q := by
  intro met
  obtain ⟨node, found⟩ := held
  rw [← find_same met, free.absent] at found
  cases found

-- Nothing can be put where the walk goes, so it goes there as before.
theorem lists_more (keyed : Keyed t.nodes) (free : t.Free p) (away : ¬p.same root)
    (plain : node.kind ≠ .directory) :
    ContentTree.ListsMore t.contents (t.put p node).contents (added p node) root := by
  constructor
  · intro d e present
    rw [(mem_added.mp present).1]
    exact plain
  · intro d reached
    apply list_added free
    rcases met_row keyed reached with rfl | held
    · exact away
    · exact held_apart free ⟨_, find_row keyed held.1⟩

theorem below_listed (keyed : Keyed t.nodes) (reached : t.contents.Reaches root dir)
    (child : ∃ r, p.parent? = some r ∧ r.same dir) : p.Below root := by
  obtain ⟨r, above, met⟩ := child
  rcases met_row keyed reached with rfl | held
  · exact .direct above met
  · exact .further above (held.2.lower.respell (Path.same_symm met) (Path.same_refl _))

theorem under_climbed (directory : t.find? root = some .directory)
    (climbed : ∀ q, q.Below root → p.Below q → t.find? q = some .directory)
    (below : p.Below root) : t.Under root p := by
  induction below with
  | direct above met => exact .direct above met ((find_same met).trans directory)
  | further above rest ih =>
    have here := climbed _ rest (.direct above (Path.same_refl _))
    exact .further above here
      (ih directory fun q lower higher => climbed q lower (.further above higher))

theorem under_free (free : t.Free p) (directory : t.find? root = some .directory)
    (below : p.Below root) : t.Under root p := by
  apply under_climbed directory ?_ below
  intro q lower higher
  refine free.above q ?_ higher
  rintro rfl
  exact Path.empty_top root lower

theorem Under.carried {t' : MemoryTree} (under : t.Under root p)
    (kept : ∀ q, t.find? q = some .directory → t'.find? q = some .directory) :
    t'.Under root p := by
  induction under with
  | direct above met directory => exact .direct above met (kept _ directory)
  | further above directory _ ih => exact .further above (kept _ directory) ih

theorem directory_beside (free : t.Free p) (node : Node) (found : t.find? q = some .directory) :
    (t.put p node).find? q = some .directory := by
  rw [find_beside free (held_apart free ⟨_, found⟩), found]

theorem survey_put (keyed : Keyed t.nodes) (free : t.Free p) (node : Node) (away : ¬p.same root)
    (plain : node.kind ≠ .directory) :
    (t.put p node).contents.survey root =
      (t.contents.survey root).map (List.map (ContentTree.extended (added p node))) :=
  (ContentTree.survey_more (finite_below keyed root) (lists_more keyed free away plain)).2

theorem put_document (keyed : Keyed t.nodes) (free : t.Free p)
    (surveyed : t.contents.survey root = .ok listings)
    (surveyed' : (t.put p (.file bytes)).contents.survey root = .ok listings')
    (below : p.Below root) (named : p.Named extension) :
    (t.put p (.file bytes)).contents.IsDocument root extension p := by
  have keyed' := put_keyed keyed p (.file bytes)
  have lists := fun d =>
    ContentTree.survey_reached (finite_below keyed' root) surveyed' (d := d)
  obtain ⟨entries, opened⟩ := ContentTree.survey_reached (finite_below keyed root) surveyed .start
  have under := (under_free free (list_listed opened).1 below).carried
    fun q found => directory_beside free (.file bytes) found
  have row : (p.place, p, .file bytes) ∈ (t.put p (.file bytes)).nodes := by simp [put_free free]
  obtain ⟨d, inside, reached, listed, present⟩ :=
    row_listed keyed' lists under row (Path.same_refl p)
  exact ⟨d, inside, reached, listed, present, named⟩

end MemoryTree

namespace Validation

open MemoryTree (Keyed Free added)

variable {t : MemoryTree} {config : Config} {listings : List Listing} {p q : Path}
  {bytes : List UInt8}

theorem documents_extended (more : Path → List Entry) (l : Listing) (extension : String) :
    (ContentTree.extended more l).documents extension =
      l.documents extension ++ Listing.documents ⟨l.directory, more l.directory⟩ extension := by
  simp [ContentTree.extended, Listing.documents]

theorem documents_added (l : Listing) (extension : String) :
    q ∈ Listing.documents ⟨l.directory, added p (.file bytes) l.directory⟩ extension ↔
      q = p ∧ p.Named extension ∧ ∃ r, p.parent? = some r ∧ r.same l.directory := by
  simp only [Listing.documents, List.mem_map, List.mem_filter, MemoryTree.mem_added,
    Bool.and_eq_true, Path.hasExtension_exact]
  constructor
  · rintro ⟨e, ⟨⟨rfl, child⟩, -, named⟩, rfl⟩
    exact ⟨rfl, named, child⟩
  · rintro ⟨rfl, named, child⟩
    exact ⟨_, ⟨⟨rfl, child⟩, rfl, named⟩, rfl⟩

theorem validate_aside (keyed : Keyed t.nodes) (free : t.Free p) (away : ¬p.same config.root)
    (aside : ¬(p.Below config.root ∧ p.Named config.extension)) :
    validate (t.put p (.file bytes)).contents config = validate t.contents config := by
  have grown := MemoryTree.survey_put keyed free (.file bytes) away nofun
  cases surveyed : t.contents.survey config.root with
  | error failure =>
    rw [surveyed] at grown
    rw [validate_failed surveyed, validate_failed grown]
  | ok listings =>
    rw [surveyed] at grown
    have finite := MemoryTree.finite_below keyed config.root
    have undisturbed : ∀ l ∈ listings, (ContentTree.extended (added p (.file bytes)) l).documents
        config.extension = l.documents config.extension := by
      intro l present
      rw [documents_extended, List.append_right_eq_self, List.eq_nil_iff_forall_not_mem]
      intro q new
      obtain ⟨-, named, child⟩ := (documents_added l config.extension).mp new
      have reached := ((ContentTree.survey_listings finite surveyed l).mp present).1
      exact aside ⟨MemoryTree.below_listed keyed reached child, named⟩
    have same : documentsOf (listings.map (ContentTree.extended (added p (.file bytes))))
        config.extension = documentsOf listings config.extension := by
      rw [documentsOf, documentsOf, List.flatMap_map, List.flatMap_congr undisturbed]
    have judging : ∀ q ∈ documentsOf listings config.extension,
        judge (t.put p (.file bytes)).contents config q = judge t.contents config q := by
      intro q present
      have document := (mem_documentsOf finite surveyed).mp present
      exact judge_same
        (MemoryTree.read_beside free
          (MemoryTree.held_apart free (MemoryTree.document_held keyed document)))
    rw [validate_surveyed grown, validate_surveyed surveyed, same, mapM_congr judging]
    rfl

theorem documents_joined (bytes : List UInt8) (keyed : Keyed t.nodes) (free : t.Free p)
    (away : ¬p.same config.root)
    (below : p.Below config.root) (named : p.Named config.extension)
    (surveyed : t.contents.survey config.root = .ok listings) :
    ∃ listings', (t.put p (.file bytes)).contents.survey config.root = .ok listings' ∧
      (listings'.flatMap (·.documents config.extension)).Perm
        (p :: listings.flatMap (·.documents config.extension)) ∧
      (p :: listings.flatMap (·.documents config.extension)).Pairwise fun p q => ¬p.same q := by
  have keyed' := MemoryTree.put_keyed keyed p (.file bytes)
  have finite := MemoryTree.finite_below keyed config.root
  have finite' := MemoryTree.finite_below keyed' config.root
  have grown := MemoryTree.survey_put keyed free (.file bytes) away nofun
  rw [surveyed] at grown
  have apart : (p :: listings.flatMap (·.documents config.extension)).Pairwise
      fun p q => ¬p.same q := by
    refine List.pairwise_cons.mpr ⟨?_, ContentTree.documents_apart finite
      (MemoryTree.lists_once keyed config.root) surveyed⟩
    intro q present
    have document := (ContentTree.mem_documents finite surveyed q).mp present
    exact MemoryTree.held_apart free (MemoryTree.document_held keyed document)
  have apart' : (List.flatMap (·.documents config.extension)
      (listings.map (ContentTree.extended (added p (.file bytes))))).Pairwise
        fun p q => ¬p.same q :=
    ContentTree.documents_apart finite' (MemoryTree.lists_once keyed' config.root) grown
  refine ⟨_, grown, ?_, apart⟩
  rw [List.perm_ext_iff_of_nodup (Path.apart_nodup apart') (Path.apart_nodup apart)]
  intro q
  rw [List.mem_cons]
  constructor
  · intro present
    obtain ⟨longer, extended, present⟩ := List.mem_flatMap.mp present
    obtain ⟨l, listing, rfl⟩ := List.mem_map.mp extended
    rw [documents_extended, List.mem_append] at present
    rcases present with old | new
    · exact .inr (List.mem_flatMap.mpr ⟨l, listing, old⟩)
    · exact .inl ((documents_added l config.extension).mp new).1
  · rintro (rfl | old)
    · exact (ContentTree.mem_documents finite' grown q).mpr
        (MemoryTree.put_document keyed free surveyed grown below named)
    · obtain ⟨l, listing, old⟩ := List.mem_flatMap.mp old
      refine List.mem_flatMap.mpr ⟨_, List.mem_map_of_mem listing, ?_⟩
      rw [documents_extended]
      exact List.mem_append_left _ old

-- What a report gains by one document: its place is behind the documents before it in path
-- order and ahead of the others, and nothing else changes.
structure Joins (tree : ContentTree) (config : Config) (p : Path) (bytes : List UInt8)
    (before after : Report) : Prop where
  files : after.filesScanned = before.filesScanned + 1
  blocks : after.codeBlocks = before.codeBlocks + Document.expectedBlocks bytes
  findings : ∃ smaller greater : List (Path × List UInt8),
    ((smaller ++ greater).Pairwise fun a b => a.1.Before b.1) ∧
    (∀ q content, (q, content) ∈ smaller ++ greater ↔
      tree.IsDocument config.root config.extension q ∧ tree.read q = .ok content) ∧
    (∀ d ∈ smaller, d.1.Before p) ∧ (∀ d ∈ greater, p.Before d.1) ∧
    before.findings =
      (smaller ++ greater).flatMap (fun (q, content) => Document.expected config q content) ∧
    after.findings =
      smaller.flatMap (fun (q, content) => Document.expected config q content) ++
        Document.expected config p bytes ++
        greater.flatMap (fun (q, content) => Document.expected config q content)

theorem reportOf_joins {tree : ContentTree} {smaller greater : List (Path × List UInt8)}
    (ordered : (smaller ++ greater).Pairwise fun a b => a.1.Before b.1)
    (all : ∀ q content, (q, content) ∈ smaller ++ greater ↔
      tree.IsDocument config.root config.extension q ∧ tree.read q = .ok content)
    (early : ∀ d ∈ smaller, d.1.Before p) (late : ∀ d ∈ greater, p.Before d.1) :
    Joins tree config p bytes (reportOf config (smaller ++ greater))
      (reportOf config (smaller ++ (p, bytes) :: greater)) := by
  constructor
  · simp only [reportOf, List.length_append, List.length_cons]
    omega
  · simp only [reportOf, List.map_append, List.map_cons, List.sum_append, List.sum_cons]
    omega
  · refine ⟨smaller, greater, ordered, all, early, late, rfl, ?_⟩
    simp [reportOf]

theorem readable_joined {tree other : ContentTree} {smaller greater : List Path}
    (same : ∀ q ∈ smaller ++ greater, other.read q = tree.read q)
    (read : other.read p = .ok bytes)
    (readable : ∀ q ∈ smaller ++ greater, tree.read q = .ok (contentOf tree q)) :
    ∀ q ∈ smaller ++ p :: greater, other.read q = .ok (contentOf other q) := by
  intro q present
  by_cases new : q = p
  · rw [new, content_read read, read]
  · have old : q ∈ smaller ++ greater := by simpa [new] using present
    have answer := (same q old).trans (readable q old)
    rw [content_read answer, answer]

theorem holding_joined {tree other : ContentTree} {smaller greater : List Path}
    (same : ∀ q ∈ smaller ++ greater, other.read q = tree.read q)
    (read : other.read p = .ok bytes) :
    holding other (smaller ++ p :: greater) =
      holding tree smaller ++ (p, bytes) :: holding tree greater := by
  have kept : ∀ q ∈ smaller ++ greater, (q, contentOf other q) = (q, contentOf tree q) := by
    intro q present
    rw [contentOf, contentOf, same q present]
  have first : holding other smaller = holding tree smaller :=
    List.map_congr_left fun q early => kept q (List.mem_append_left greater early)
  have second : holding other greater = holding tree greater :=
    List.map_congr_left fun q late => kept q (List.mem_append_right smaller late)
  rw [← first, ← second, ← content_read read]
  exact List.map_append

theorem validate_put (keyed : Keyed t.nodes) (free : t.Free p) (away : ¬p.same config.root)
    (below : p.Below config.root) (named : p.Named config.extension) {report : Report}
    (done : validate t.contents config = .ok report) :
    ∃ after, validate (t.put p (.file bytes)).contents config = .ok after ∧
      Joins t.contents config p bytes report after := by
  obtain ⟨listings, surveyed, readable, rfl⟩ := validate_done done
  obtain ⟨listings', surveyed', perm, apart⟩ :=
    documents_joined bytes keyed free away below named surveyed
  have finite := MemoryTree.finite_below keyed config.root
  have once := MemoryTree.lists_once keyed config.root
  obtain ⟨smaller, greater, before, whole, early, late⟩ := Path.sort_insert apart
  have before : documentsOf listings config.extension = smaller ++ greater := before
  have after : documentsOf listings' config.extension = smaller ++ p :: greater := by
    rw [documentsOf, ← whole]
    exact (Path.sort_perm apart perm.symm).symm
  have ordered := documentsOf_before finite once surveyed
  have all : ∀ q, q ∈ documentsOf listings config.extension ↔
      t.contents.IsDocument config.root config.extension q :=
    fun _ => mem_documentsOf finite surveyed
  rw [before] at ordered all readable
  have same : ∀ q ∈ smaller ++ greater,
      (t.put p (.file bytes)).contents.read q = t.contents.read q := by
    intro q present
    have document := MemoryTree.document_held keyed ((all q).mp present)
    exact MemoryTree.read_beside free (MemoryTree.held_apart free document)
  have read := MemoryTree.read_put t p bytes
  have readable' := readable_joined same read readable
  rw [← after] at readable'
  refine ⟨_, validate_read surveyed' readable', ?_⟩
  rw [before, after, holding_joined same read, holding, List.map_append]
  apply reportOf_joins
  · rw [← List.map_append]
    exact List.pairwise_map.mpr ordered
  · intro q content
    rw [← List.map_append, ← all]
    exact mem_holding readable q content
  · simpa using early
  · simpa [holding] using late

-- Putting a file where nothing is, with directories all the way up, changes a report only if
-- the file is a document; then the report tells of that document in its place, and of all
-- others as before.
theorem file_added (steps : List MemoryTree.Step) (config : Config) (p : Path)
    (bytes : List UInt8) (away : ¬p.same config.root)
    (absent : (MemoryTree.build steps).find? p = none)
    (above : ∀ q, q ≠ .empty → p.Below q → (MemoryTree.build steps).find? q = some .directory) :
    (p.Below config.root → p.Named config.extension →
      ∀ before, validate (MemoryTree.build steps).contents config = .ok before →
        ∃ after, validate (MemoryTree.build (steps ++ [.file p bytes])).contents config = .ok after ∧
          Joins (MemoryTree.build steps).contents config p bytes before after) ∧
      (¬(p.Below config.root ∧ p.Named config.extension) →
        ∀ report, validate (MemoryTree.build (steps ++ [.file p bytes])).contents config = .ok report ↔
          validate (MemoryTree.build steps).contents config = .ok report) := by
  have keyed := MemoryTree.build_keyed steps
  have free : (MemoryTree.build steps).Free p := ⟨absent, above⟩
  have put : MemoryTree.build (steps ++ [.file p bytes]) =
      (MemoryTree.build steps).put p (.file bytes) := MemoryTree.build_concat steps _
  rw [put]
  constructor
  · intro below named before done
    exact validate_put keyed free away below named done
  · intro aside report
    rw [validate_aside keyed free away aside]

def appendix : Path := .ofString "docs/guide/end.md"

theorem handbook_joined : ∃ before after,
    validate (MemoryTree.build handbook).contents handbookConfig = .ok before ∧
      validate (MemoryTree.build (handbook ++ [.file appendix [0x60, 0x60, 0x60]])).contents
        handbookConfig = .ok after ∧
      Joins (MemoryTree.build handbook).contents handbookConfig appendix [0x60, 0x60, 0x60]
        before after := by
  have keyed := MemoryTree.build_keyed handbook
  have ends : Ends (MemoryTree.build handbook).contents handbookConfig _ :=
    validate_ends (MemoryTree.finite_below keyed _)
  obtain ⟨before, done⟩ := ends.done
    (fun _ => MemoryTree.reached_lists (by simp [handbook]) (by decide))
    (fun _ => MemoryTree.document_reads (by simp [handbook]))
  obtain ⟨after, told, joined⟩ := (file_added handbook handbookConfig appendix [0x60, 0x60, 0x60]
    (by decide) (by decide) (MemoryTree.above_climbed (by decide))).1
      (Path.below_exact.mpr ⟨appendix.components.drop 1, by decide, by decide, by decide⟩)
      ⟨Text.encode "end.md".toList, "end.md".toList, by decide, by decide, by decide⟩ before done
  exact ⟨before, after, done, told, joined⟩

end Validation
end ChapterCheck
