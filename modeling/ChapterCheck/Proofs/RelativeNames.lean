import ChapterCheck.Proofs.PathJoining
import ChapterCheck.Proofs.RunEnding

namespace ChapterCheck

theorem Path.names_plain {p q : Path} (low : q.components ≠ [])
    (whole : p.components = q.components ++ names) : ∀ c ∈ names, c ≠ .root ∧ c ≠ .here := by
  intro c present
  have behind : c ∈ p.components.tail := by
    rw [whole, List.tail_append_of_ne_nil low]
    exact List.mem_append_right _ present
  have held : c ∈ named p.parts := by
    rw [components_named] at behind
    cases head : p.head? with
    | none =>
      rw [head] at behind
      exact List.mem_of_mem_tail behind
    | some d =>
      rw [head] at behind
      exact behind
  exact named_plain held

namespace Config

def contentNames : List Component :=
  ["src", "content", "docs"].map fun name => .name (Text.encode name.toList)

theorem contentNames_plain : ∀ c ∈ contentNames, c ≠ .root ∧ c ≠ .here := by
  intro c present
  obtain ⟨name, -, rfl⟩ := List.mem_map.mp present
  exact ⟨nofun, nofun⟩

theorem contentRoot_names : contentRoot.head? = none ∧ contentRoot.components = contentNames := by
  decide +kernel

theorem forBase_root (base : Path) :
    (forBase base).root.components = base.components ++ contentNames := by
  obtain ⟨bare, names⟩ := contentRoot_names
  rw [forBase, Path.components_join base bare, names]

end Config

namespace Document

-- Behind the base directory the name of a document leads to the document.
structure NamedUnder (base : Path) (d : Document) : Prop where
  found : d.path.relativeTo? base = some d.name
  relative : d.name.isAbsolute = false
  content : Config.contentNames <+: d.name.components
  leads : (base.join d.name).same d.path

variable {tree : ContentTree} {base p q : Path} {d e : Document} {names : List Component}

theorem load_named (read : load tree base p = .ok d) : d.path = p ∧ d.name = nameIn base p := by
  unfold load at read
  split at read
  · cases read
    exact ⟨rfl, rfl⟩
  · cases read

theorem nameIn_content (children : tree.ListsChildren (Config.forBase base).root)
    (document : tree.IsDocument (Config.forBase base).root ending p) :
    p.relativeTo? base = some (nameIn base p) ∧ (nameIn base p).head? = none ∧
      Config.contentNames <+: (nameIn base p).components ∧
      p.components = base.components ++ (nameIn base p).components := by
  obtain ⟨names, -, whole, -⟩ := (ContentTree.document_below children document).grown
  have root := Config.forBase_root base
  have filled : Config.contentNames ≠ [] := nofun
  have plain : ∀ c ∈ names, c ≠ .root ∧ c ≠ .here := by
    refine Path.names_plain ?_ whole
    rw [root]
    exact List.append_ne_nil_of_right_ne_nil _ filled
  rw [root, List.append_assoc] at whole
  obtain ⟨left, found, bare, told⟩ := Path.relativeTo_names whole
    (List.append_ne_nil_of_left_ne_nil filled _)
    (List.forall_mem_append.mpr ⟨Config.contentNames_plain, plain⟩)
  have own : nameIn base p = left := by rw [nameIn, found, Option.getD_some]
  rw [own, told]
  exact ⟨found, bare, List.prefix_append _ _, whole⟩

theorem load_under (children : tree.ListsChildren (Config.forBase base).root)
    (document : tree.IsDocument (Config.forBase base).root ending p)
    (read : load tree base p = .ok d) : d.NamedUnder base := by
  obtain ⟨rfl, name⟩ := load_named read
  obtain ⟨found, bare, content, whole⟩ := nameIn_content children document
  rw [← name] at found bare content whole
  refine ⟨found, Path.relative bare, content, ?_⟩
  exact Path.same_exact.mpr ((Path.components_join base bare).trans whole.symm)

theorem nameIn_same (children : tree.ListsChildren (Config.forBase base).root)
    (first : tree.IsDocument (Config.forBase base).root ending p)
    (second : tree.IsDocument (Config.forBase base).root ending q) :
    (nameIn base p).same (nameIn base q) ↔ p.same q := by
  obtain ⟨-, -, -, whole⟩ := nameIn_content children first
  obtain ⟨-, -, -, whole'⟩ := nameIn_content children second
  rw [Path.same_exact, Path.same_exact, whole, whole', List.append_cancel_left_eq]

theorem nameIn_before (children : tree.ListsChildren (Config.forBase base).root)
    (first : tree.IsDocument (Config.forBase base).root ending p)
    (second : tree.IsDocument (Config.forBase base).root ending q) :
    (nameIn base p).Before (nameIn base q) ↔ p.Before q := by
  obtain ⟨-, -, -, whole⟩ := nameIn_content children first
  obtain ⟨-, -, -, whole'⟩ := nameIn_content children second
  rw [Path.before_components, Path.before_components, whole, whole', lex_append]

end Document

namespace Validation

variable {tree : ContentTree} {config : Config} {listings : List Listing}

theorem expected_file (config : Config) (p : Path) (bytes : List UInt8) :
    ∀ f ∈ Document.expected config p bytes, f.file = Document.nameIn config.base p := by
  intro f present
  unfold Document.expected at present
  rcases List.mem_append.mp present with present | pattern
  · rcases List.mem_append.mp present with issue | fence
    · obtain ⟨i, -, rfl⟩ := List.mem_map.mp issue
      rfl
    · obtain ⟨line, -, rfl⟩ := List.mem_map.mp fence
      rfl
  · obtain ⟨q, -, rfl⟩ := List.mem_map.mp pattern
    rfl

theorem findings_sorted {report : Report}
    (kept : ∀ p ∈ documentsOf listings config.extension,
      ∀ q ∈ documentsOf listings config.extension, p.notAfter q →
        (Document.nameIn config.base p).notAfter (Document.nameIn config.base q))
    (told : report = reportOf config (holding tree (documentsOf listings config.extension))) :
    report.findings.Pairwise fun f g => f.file.notAfter g.file := by
  have sorted : (documentsOf listings config.extension).Pairwise fun p q => p.notAfter q :=
    List.pairwise_mergeSort Path.notAfter_trans Path.notAfter_total _
  rw [told]
  simp only [reportOf, holding, List.flatMap_map]
  refine List.pairwise_flatMap.mpr ⟨?_, ?_⟩
  · intro p _
    refine List.pairwise_iff_forall_sublist.mpr ?_
    intro f g both
    rw [expected_file config p _ f (both.subset (by simp)),
      expected_file config p _ g (both.subset (by simp))]
    exact Path.notAfter_exact.mpr fun back => Path.before_asymm back back
  · refine sorted.imp_of_mem ?_
    intro p q first second before f present g present'
    rw [expected_file config p _ f present, expected_file config q _ g present']
    exact kept p first q second before

-- Whatever base directory is named and however it is spelled: each document that a run reads is
-- found behind it, under a name that leads back to the document and is no other's. These names
-- have the order of the documents, so findings are told of in the order of names.
theorem forBase_names (base : Path) (tree : ContentTree)
    (children : tree.ListsChildren (Config.forBase base).root) :
    (∀ p d, tree.IsDocument (Config.forBase base).root (Config.forBase base).extension p →
      Document.load tree base p = .ok d → d.path = p ∧ d.NamedUnder base) ∧
    (∀ p q d e, tree.IsDocument (Config.forBase base).root (Config.forBase base).extension p →
      tree.IsDocument (Config.forBase base).root (Config.forBase base).extension q →
      Document.load tree base p = .ok d → Document.load tree base q = .ok e →
        (d.name.same e.name ↔ p.same q) ∧ (d.name.Before e.name ↔ p.Before q)) ∧
    ∀ report, tree.FiniteBelow (Config.forBase base).root →
      validate tree (Config.forBase base) = .ok report →
        report.findings.Pairwise fun f g => f.file.notAfter g.file := by
  refine ⟨?_, ?_, ?_⟩
  · intro p d document read
    exact ⟨(Document.load_named read).1, Document.load_under children document read⟩
  · intro p q d e first second read read'
    rw [(Document.load_named read).2, (Document.load_named read').2]
    exact ⟨Document.nameIn_same children first second, Document.nameIn_before children first second⟩
  · intro report finite done
    obtain ⟨listings, surveyed, -, told⟩ := validate_done done
    refine findings_sorted ?_ told
    intro p first q second before
    rw [Path.notAfter_exact] at before ⊢
    rw [mem_documentsOf finite surveyed] at first second
    exact mt (Document.nameIn_before children second first).mp before

-- The base and the tree call the directory by different spellings.
def manualBase : Path := .ofString "../man//"

def manual : List MemoryTree.Step :=
  [.file (.ofString "../man/src/content/docs/b.mdx") [],
    .file (.ofString "../man/./src//content/docs/a/b.mdx") []]

theorem manual_named : ∃ d report,
    Document.load (MemoryTree.build manual).contents manualBase
      (.ofString "../man/src/content/docs/b.mdx") = .ok d ∧ d.NamedUnder manualBase ∧
    validate (MemoryTree.build manual).contents (Config.forBase manualBase) = .ok report ∧
    report.findings.Pairwise fun f g => f.file.notAfter g.file := by
  have keyed := MemoryTree.build_keyed manual
  have finite := MemoryTree.finite_below keyed (Config.forBase manualBase).root
  obtain ⟨report, done⟩ : ∃ report,
      validate (MemoryTree.build manual).contents (Config.forBase manualBase) = .ok report :=
    build_reports (by simp [manual]) (by simp [manual]) (by decide +kernel)
  obtain ⟨leads, -, ordered⟩ := forBase_names manualBase (MemoryTree.build manual).contents
    (MemoryTree.lists_children keyed _)
  have usage := leads (.ofString "../man/src/content/docs/b.mdx") _
    ⟨_, _, .start, rfl, by decide +kernel, Path.hasExtension_exact.mp (by decide +kernel)⟩ rfl
  exact ⟨_, report, rfl, usage.2, done, ordered report finite done⟩

end Validation
end ChapterCheck
