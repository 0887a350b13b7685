import ChapterCheck.Proofs.RunEnding
import ChapterCheck.Proofs.Utf8Codec

namespace ChapterCheck

theorem Path.named_bytes {p : Path} {bytes : List UInt8}
    (last : p.components.getLast? = some (.name bytes)) :
    p.Named extension ↔
      (Text.decode? bytes).isSome ∧ Text.encode extension.toList <:+ bytes := by
  rw [Option.isSome_iff_exists]
  constructor
  · intro named
    obtain ⟨own, name, last', decoded, ending⟩ := named
    rw [last] at last'
    cases last'
    refine ⟨⟨name, decoded⟩, ?_⟩
    rw [(Text.decode_exact _ _).mp decoded]
    exact Text.encode_suffix.mpr ending
  · intro held
    obtain ⟨⟨name, decoded⟩, ending⟩ := held
    rw [(Text.decode_exact _ _).mp decoded] at ending
    exact ⟨bytes, name, last, decoded, Text.encode_suffix.mp ending⟩

namespace Validation

variable {tree : ContentTree} {config : Config} {report : Report}

def Spotless (config : Config) (p : Path) (bytes : List UInt8) : Prop :=
  (judged config p bytes).2.findings = []

theorem spotless_exact : Spotless config p bytes ↔
    Document.defects config.patterns (String.ofList (Text.decodeLossy bytes)) = [] := by
  simp [Spotless, judged, Document.check]

theorem Spotless.respell (spotless : Spotless config p bytes) (q : Path) : Spotless config q bytes :=
  spotless_exact.mpr (spotless_exact.mp spotless)

theorem passed_covers (finite : tree.FiniteBelow config.root)
    (done : validate tree config = .ok report) :
    report.passed = true ↔ ∀ p bytes, tree.IsDocument config.root config.extension p →
      tree.read p = .ok bytes → Spotless config p bytes := by
  obtain ⟨listings, surveyed, readable, rfl⟩ := validate_done done
  have held : ∀ p bytes, (p, bytes) ∈ holding tree (documentsOf listings config.extension) ↔
      tree.IsDocument config.root config.extension p ∧ tree.read p = .ok bytes := by
    intro p bytes
    rw [mem_holding readable, mem_documentsOf finite surveyed]
  simp only [Report.passed, reportOf, List.isEmpty_iff, List.flatMap_eq_nil_iff, Prod.forall, held,
    Spotless, judged_expected, and_imp]

theorem passed_files (steps : List MemoryTree.Step)
    (done : validate (MemoryTree.build steps).contents config = .ok report) :
    report.passed = true ↔ ∀ p bytes, (MemoryTree.build steps).find? p = some (.file bytes) →
      (MemoryTree.build steps).Under config.root p → p.Named config.extension →
        Spotless config p bytes := by
  have keyed := MemoryTree.build_keyed steps
  have finite := MemoryTree.finite_below keyed config.root
  obtain ⟨listings, surveyed, -⟩ := validate_done done
  rw [passed_covers finite done]
  constructor
  · intro all p bytes found under named
    obtain ⟨q, listed, met⟩ := (MemoryTree.document_found keyed surveyed p).mpr
      ⟨.inl ⟨bytes, found⟩, under, named⟩
    have read : (MemoryTree.build steps).read q = .ok bytes :=
      ((MemoryTree.read_exact _ q).content bytes).mpr ((MemoryTree.find_same met).trans found)
    exact (all q bytes listed read).respell p
  · intro all p bytes listed read
    obtain ⟨-, under, named⟩ := (MemoryTree.document_found keyed surveyed p).mp
      ⟨p, listed, Path.same_refl p⟩
    exact all p bytes (((MemoryTree.read_exact _ p).content bytes).mp read) under named

-- A pass vouches for every file under the root that ends with the extension, as long as its
-- name is UTF-8, and for no other.
theorem passed_exact (steps : List MemoryTree.Step) (config : Config) (report : Report)
    (done : validate (MemoryTree.build steps).contents config = .ok report) :
    report.passed = true ↔ ∀ p name bytes,
      (MemoryTree.build steps).find? p = some (.file bytes) →
      (MemoryTree.build steps).Under config.root p →
      p.components.getLast? = some (.name name) →
      Text.encode config.extension.toList <:+ name → (Text.decode? name).isSome →
        Spotless config p bytes := by
  rw [passed_files steps done]
  constructor
  · intro all p name bytes found under last ending decoded
    exact all p bytes found under ((Path.named_bytes last).mpr ⟨decoded, ending⟩)
  · intro all p bytes found under named
    have ⟨name, _, last, _⟩ := named
    obtain ⟨decoded, ending⟩ := (Path.named_bytes last).mp named
    exact all p name bytes found under last ending decoded

def chapter : List UInt8 := Text.encode "---\ntitle: A\ndescription: B\n---\n".toList

def draft : List UInt8 := Text.encode "FIXME".toList

def draftName : List UInt8 := 0xff :: Text.encode ".mdx".toList

def draftPath : Path := ⟨Text.encode "docs/".toList ++ draftName⟩

def shelf : List MemoryTree.Step :=
  [.file (.ofString "docs/index.mdx") chapter, .file draftPath draft]

def shelfConfig : Config := ⟨.ofString "docs", .empty, ".mdx", Pattern.builtin⟩

theorem shelf_reports : ∃ report,
    validate (MemoryTree.build shelf).contents shelfConfig = .ok report :=
  build_reports (by simp [shelf]) (by simp [shelf]) (by decide)

theorem shelf_spotless (found : (MemoryTree.build shelf).find? p = some (.file bytes))
    (named : p.Named shelfConfig.extension) : Spotless shelfConfig p bytes := by
  obtain ⟨q, met, row⟩ := MemoryTree.row_of_find (MemoryTree.build_keyed shelf) found
  have rows : ∀ row ∈ (MemoryTree.build shelf).nodes, row.2.2 = .directory ∨
      row.2.2 = .file chapter ∨ row.2.1.components.getLast? = some (.name draftName) := by decide
  rcases rows _ row with directory | content | last
  · cases directory
  · cases content
    rw [spotless_exact]
    decide +kernel
  · rw [Path.same_exact.mp met] at last
    exact absurd ((Path.named_bytes last).mp named).1 (by decide)

theorem shelf_passed : ∃ report,
    validate (MemoryTree.build shelf).contents shelfConfig = .ok report ∧ report.passed = true := by
  obtain ⟨report, done⟩ := shelf_reports
  refine ⟨report, done, (passed_exact shelf shelfConfig report done).mpr ?_⟩
  intro p name bytes found _ last ending decoded
  exact shelf_spotless found ((Path.named_bytes last).mpr ⟨decoded, ending⟩)

-- Yet the draft is a file under the root, and its name ends with the extension.
theorem shelf_draft : ∃ report,
    validate (MemoryTree.build shelf).contents shelfConfig = .ok report ∧ report.passed = true ∧
      (MemoryTree.build shelf).find? draftPath = some (.file draft) ∧
      (MemoryTree.build shelf).Under shelfConfig.root draftPath ∧
      draftPath.components.getLast? = some (.name draftName) ∧
      Text.encode shelfConfig.extension.toList <:+ draftName ∧
      ¬Spotless shelfConfig draftPath draft := by
  obtain ⟨report, done⟩ := shelf_reports
  have passed : report.passed = true :=
    (passed_files shelf done).mpr fun _ _ found _ named => shelf_spotless found named
  have unfinished : ¬Spotless shelfConfig draftPath draft := by
    rw [spotless_exact]
    decide +kernel
  exact ⟨report, done, passed, by decide, .direct rfl (by decide) (by decide), by decide, by decide,
    unfinished⟩

end Validation
end ChapterCheck
