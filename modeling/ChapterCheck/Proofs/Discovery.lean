import ChapterCheck.Proofs.PathOrder
import ChapterCheck.Proofs.TreeSurvey

namespace ChapterCheck

def Path.Named (p : Path) (extension : String) : Prop :=
  ∃ bytes name, p.components.getLast? = some (.name bytes) ∧ Text.decode? bytes = some name ∧
    extension.toList <:+ name

theorem Path.fileName_exact {p : Path} {bytes : List UInt8} :
    p.fileName? = some bytes ↔ p.components.getLast? = some (.name bytes) := by
  unfold fileName?
  split
  · rename_i held last
    rw [last, Option.some.injEq, Option.some.injEq, Component.name.injEq]
  · rename_i other
    constructor
    · intro absent
      cases absent
    · intro last
      exact absurd last (other bytes)

theorem Path.hasExtension_exact {p : Path} : p.hasExtension extension = true ↔ p.Named extension := by
  simp only [hasExtension, Option.any_eq_true, Option.bind_eq_some_iff, fileName_exact,
    List.isSuffixOf_iff_suffix, Named]
  constructor
  · intro held
    obtain ⟨name, ⟨bytes, last, decoded⟩, ending⟩ := held
    exact ⟨bytes, name, last, decoded, ending⟩
  · intro held
    obtain ⟨bytes, name, last, decoded, ending⟩ := held
    exact ⟨name, ⟨bytes, last, decoded⟩, ending⟩

theorem Path.Named.respell {p q : Path} (named : p.Named extension) (met : p.same q) :
    q.Named extension := by
  rw [Named, ← same_exact.mp met]
  exact named

namespace ContentTree

variable {tree : ContentTree} {root dir : Path} {extension : String} {listings : List Listing}

-- What is to be checked: every regular file with the extension that some directory met on
-- the way down lists.
def IsDocument (tree : ContentTree) (root : Path) (extension : String) (p : Path) : Prop :=
  ∃ d entries, tree.Reaches root d ∧ tree.list d = .ok entries ∧ ⟨p, .file⟩ ∈ entries ∧
    p.Named extension

theorem documents_flat (listings : List Listing) (extension : String) :
    listings.flatMap (·.documents extension) =
      ((entriesOf listings).filter fun e => e.kind = .file && e.path.hasExtension extension).map
        Entry.path := by
  simp [entriesOf, Listing.documents, List.filter_flatMap, List.map_flatMap]

theorem mem_documents (finite : tree.FiniteBelow root) (surveyed : tree.survey root = .ok listings)
    (p : Path) :
    p ∈ listings.flatMap (·.documents extension) ↔ tree.IsDocument root extension p := by
  simp only [documents_flat, List.mem_map, List.mem_filter, mem_entriesOf finite surveyed,
    Bool.and_eq_true, decide_eq_true_eq, Path.hasExtension_exact]
  constructor
  · intro held
    obtain ⟨⟨q, kind⟩, ⟨⟨d, entries, reached, listed, present⟩, file, named⟩, rfl⟩ := held
    cases file
    exact ⟨d, entries, reached, listed, present, named⟩
  · intro document
    obtain ⟨d, entries, reached, listed, present, named⟩ := document
    exact ⟨⟨p, .file⟩, ⟨⟨d, entries, reached, listed, present⟩, rfl, named⟩, rfl⟩

theorem documents_apart (finite : tree.FiniteBelow root) (once : tree.ListsOnce root)
    (surveyed : tree.survey root = .ok listings) :
    (listings.flatMap (·.documents extension)).Pairwise fun p q => ¬p.same q := by
  rw [documents_flat]
  exact List.pairwise_map.mpr ((survey_once finite once surveyed).filter _)

theorem documents_failed {failure : Failure} :
    tree.documents dir extension = .error failure ↔ tree.survey dir = .error failure := by
  rw [documents]
  cases tree.survey dir <;> simp [Except.map]

theorem documents_found {ps : List Path} :
    tree.documents dir extension = .ok ps ↔
      ∃ listings, tree.survey dir = .ok listings ∧
        listings.flatMap (·.documents extension) = ps := by
  rw [documents]
  cases tree.survey dir <;> simp [Except.map]

end ContentTree
end ChapterCheck
