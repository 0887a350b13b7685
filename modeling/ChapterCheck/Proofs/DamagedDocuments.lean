import ChapterCheck.Document
import ChapterCheck.MemoryTree
import ChapterCheck.Proofs.ByteScan

namespace ChapterCheck

theorem Frontmatter.check_missing {content : String} :
    check content = some .missingBlock ↔ block? content = none := by
  cases found : block? content with
  | none => simp [check_unopened found]
  | some body =>
    rw [check_opened found]
    grind

namespace Document

variable {d : Document} {line : Option Nat}

def Reports (d : Document) (line : Option Nat) (defect : Defect) : Prop :=
  ∃ finding ∈ (d.check Pattern.builtin).findings, finding.line = line ∧ finding.defect = defect

-- Each of the three scans tells its own defects.
inductive Told (content : String) : Option Nat → Defect → Prop where
  | frontmatter {issue : Frontmatter.Issue} (found : Frontmatter.check content = some issue) :
      Told content none (.ofIssue issue)
  | fence {n : Nat} (left : (Fence.scan content).unclosedAt = some n) :
      Told content (some n) .unclosedFence
  | pattern {p : Pattern} (present : p ∈ Pattern.scan Pattern.builtin content) :
      Told content none (.forbiddenPattern p.label)

theorem reports_told {defect : Defect} : d.Reports line defect ↔ Told d.content line defect := by
  unfold Reports check
  simp only [defects, List.mem_append, List.mem_map, Option.mem_toList]
  constructor
  · intro reported
    obtain ⟨_, ⟨_, listed, rfl⟩, rfl, rfl⟩ := reported
    rcases listed with (⟨issue, found, rfl⟩ | ⟨n, left, rfl⟩) | ⟨p, present, rfl⟩
    · exact .frontmatter found
    · exact .fence left
    · exact .pattern present
  · intro told
    cases told with
    | frontmatter found => exact ⟨_, ⟨_, .inl (.inl ⟨_, found, rfl⟩), rfl⟩, rfl, rfl⟩
    | fence left => exact ⟨_, ⟨_, .inl (.inr ⟨_, left, rfl⟩), rfl⟩, rfl, rfl⟩
    | pattern present => exact ⟨_, ⟨_, .inr ⟨_, present, rfl⟩, rfl⟩, rfl, rfl⟩

theorem reports_missing :
    d.Reports line .missingFrontmatter ↔ line = none ∧ Frontmatter.block? d.content = none := by
  rw [reports_told, ← Frontmatter.check_missing]
  generalize equal : Defect.missingFrontmatter = defect
  constructor
  · intro told
    cases told with
    | @frontmatter issue found =>
      cases issue with
      | missingBlock => exact ⟨rfl, found⟩
      | missingTitle | missingDescription => cases equal
    | fence | pattern => cases equal
  · intro missing
    rw [missing.1, ← equal]
    exact .frontmatter missing.2

theorem reports_fence : d.Reports line .unclosedFence ↔
    ∃ n, line = some n ∧ (Fence.scan d.content).unclosedAt = some n := by
  rw [reports_told]
  generalize equal : Defect.unclosedFence = defect
  constructor
  · intro told
    cases told with
    | @frontmatter issue => cases issue <;> cases equal
    | fence left => exact ⟨_, rfl, left⟩
    | pattern => cases equal
  · intro found
    obtain ⟨n, rfl, left⟩ := found
    rw [← equal]
    exact .fence left

theorem reports_pattern {p : Pattern} (listed : p ∈ Pattern.builtin) :
    d.Reports line (.forbiddenPattern p.label) ↔ line = none ∧ p.occursIn d.content = true := by
  rw [reports_told, ← Pattern.mem_scan_builtin listed, List.mem_map]
  generalize equal : Defect.forbiddenPattern p.label = defect
  constructor
  · intro told
    cases told with
    | @frontmatter issue => cases issue <;> cases equal
    | fence => cases equal
    | pattern present => exact ⟨rfl, _, present, (Defect.forbiddenPattern.inj equal).symm⟩
  · intro found
    obtain ⟨rfl, q, present, same⟩ := found
    rw [← equal, ← same]
    exact .pattern present

theorem reports_markers {bytes : List UInt8}
    (read : d.content = String.ofList (Text.decodeLossy bytes)) :
    (d.check Pattern.builtin).codeBlocks = (ByteScan.markers bytes).length / 2 ∧
      ∀ line, d.Reports line .unclosedFence ↔
        (ByteScan.markers bytes).length % 2 = 1 ∧ line = (ByteScan.markers bytes).getLast? := by
  obtain ⟨blocks, unclosed⟩ := Fence.scan_counts d.content
  rw [read, ByteScan.markers_decoded, ← read] at blocks unclosed
  refine ⟨blocks, ?_⟩
  intro line
  rw [reports_fence, unclosed]
  generalize ByteScan.markers bytes = marks
  constructor
  · intro found
    obtain ⟨n, rfl, left⟩ := found
    split at left
    · rename_i odd
      exact ⟨odd, left.symm⟩
    · cases left
  · intro found
    obtain ⟨odd, rfl⟩ := found
    rw [if_pos odd]
    cases last : marks.getLast? with
    | none =>
      rw [List.getLast?_eq_none_iff.mp last] at odd
      cases odd
    | some n => exact ⟨n, rfl, rfl⟩

-- What is told of a document can be told from its bytes. Damage shows as such and, as it leaves
-- lines, markers and words where they are, has no part in the other answers.
theorem check_bytes {tree : ContentTree} {path : Path} {bytes : List UInt8} (base : Path)
    (stored : tree.read path = .ok bytes) : ∃ d, load tree base path = .ok d ∧
    (∀ line, d.Reports line (.forbiddenPattern "/\\uFFFD/g") ↔
      line = none ∧ ByteScan.Damaged bytes) ∧
    ((d.check Pattern.builtin).codeBlocks = (ByteScan.markers bytes).length / 2 ∧
      ∀ line, d.Reports line .unclosedFence ↔
        (ByteScan.markers bytes).length % 2 = 1 ∧ line = (ByteScan.markers bytes).getLast?) ∧
    (∀ line, d.Reports line .missingFrontmatter ↔ line = none ∧ ByteScan.Unopened bytes) ∧
    (∀ line, d.Reports line (.forbiddenPattern "/FIXME/i") ↔
      line = none ∧ ByteScan.HoldsPlaceholder bytes) ∧
    ∀ line, d.Reports line (.forbiddenPattern "/\\?\\?\\?\\?/g") ↔
      line = none ∧ List.replicate 4 0x3f <:+: bytes := by
  have first : Pattern.placeholder ∈ Pattern.builtin := Pattern.builtin_exact.mpr (.inl rfl)
  have second : Pattern.lostCharacters ∈ Pattern.builtin :=
    Pattern.builtin_exact.mpr (.inr (.inl rfl))
  have third : Pattern.damagedEncoding ∈ Pattern.builtin :=
    Pattern.builtin_exact.mpr (.inr (.inr rfl))
  obtain ⟨d, loaded, content⟩ : ∃ d, load tree base path = .ok d ∧
      d.content = String.ofList (Text.decodeLossy bytes) := by
    unfold load
    rw [stored]
    exact ⟨_, rfl, rfl⟩
  have text : d.content.toList = Text.decodeLossy bytes := by rw [content, String.toList_ofList]
  refine ⟨d, loaded, ?_, ?_, ?_, ?_, ?_⟩
  · intro line
    refine (reports_pattern third).trans (and_congr_right fun _ => ?_)
    rw [Pattern.damagedEncoding_occurs, text]
    exact ByteScan.damaged_decoded bytes
  · exact reports_markers content
  · intro line
    rw [reports_missing, content, ByteScan.unopened_decoded]
  · intro line
    refine (reports_pattern first).trans (and_congr_right fun _ => ?_)
    rw [Pattern.occursIn_words Pattern.placeholder_tells, text]
    exact ByteScan.placeholder_decoded bytes
  · intro line
    refine (reports_pattern second).trans (and_congr_right fun _ => ?_)
    rw [Pattern.lostCharacters_occurs, text]
    exact Text.decodeLossy_inside (by decide)

-- A chapter with a byte that is none of any character and one that was cut off.
def torn : List UInt8 :=
  [0x2d, 0x2d, 0x2d, 0xff, 0x0d, 0x0a, 0x60, 0x60, 0x60, 0xe2, 0x82, 0x0a, 0x66, 0x69, 0x78]

def tornPath : Path := .ofString "docs/a.mdx"

theorem torn_reported : (MemoryTree.build [.file tornPath torn]).contents.read tornPath = .ok torn ∧
    ∃ d, load (MemoryTree.build [.file tornPath torn]).contents (.ofString "docs") tornPath = .ok d ∧
      d.Reports none (.forbiddenPattern "/\\uFFFD/g") ∧
      d.Reports (some 2) .unclosedFence ∧ d.Reports none .missingFrontmatter ∧
      ¬d.Reports none (.forbiddenPattern "/\\?\\?\\?\\?/g") := by
  have stored : (MemoryTree.build [.file tornPath torn]).contents.read tornPath = .ok torn := by
    decide
  obtain ⟨d, loaded, damage, ⟨-, fence⟩, missing, -, lost⟩ := check_bytes (.ofString "docs") stored
  have damaged : ByteScan.Damaged torn := by
    refine .inl fun sound => absurd ((Text.sound_exact torn).mpr sound) ?_
    decide
  have unopened : ByteScan.Unopened torn := .inl (by decide)
  exact ⟨stored, d, loaded, (damage none).mpr ⟨rfl, damaged⟩,
    (fence (some 2)).mpr ⟨by decide, by decide⟩, (missing none).mpr ⟨rfl, unopened⟩,
    fun found => absurd ((lost none).mp found).2 (by decide)⟩

end Document
end ChapterCheck
