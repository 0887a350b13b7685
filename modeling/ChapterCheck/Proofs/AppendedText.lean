import ChapterCheck.Document
import ChapterCheck.Proofs.FenceBlocks
import ChapterCheck.Proofs.FrontmatterBlock
import ChapterCheck.Proofs.LinePatterns
import Mathlib.Data.Nat.Find

namespace ChapterCheck

namespace Text

variable {s t l : List Char} {ls ls' : List (List Char)}

def Ended (s : List Char) : Prop := ∀ c ∈ s.getLast?, c = '\n'

theorem ended_behind : Ended (l ++ '\n' :: s) ↔ Ended s := by
  unfold Ended
  rw [List.getLast?_append, List.getLast?_cons]
  cases s.getLast? <;> simp

theorem ended_returned : Ended (l ++ '\r' :: '\n' :: s) ↔ Ended s := by
  rw [show l ++ '\r' :: '\n' :: s = (l ++ ['\r']) ++ '\n' :: s by simp]
  exact ended_behind

theorem Lined.append (lined : Lined s ls) (ended : Ended s) (behind : Lined t ls') :
    Lined (s ++ t) (ls ++ ls') := by
  induction lined with
  | nothing => exact behind
  | @unended l filled within =>
    have last := ended _ (List.getLast?_eq_some_getLast filled)
    exact absurd (last ▸ List.getLast_mem filled) within
  | ended within plain _ ih =>
    rw [List.append_assoc, List.cons_append]
    exact .ended within plain (ih (ended_behind.mp ended))
  | returned within _ ih =>
    rw [List.append_assoc, List.cons_append, List.cons_append]
    exact .returned within (ih (ended_returned.mp ended))

theorem lines_append (ended : Ended s) (t : List Char) : lines (s ++ t) = lines s ++ lines t :=
  ((lines_lined s).append ended (lines_lined t)).lines

theorem Lined.cut (lined : Lined s ls) (k : Nat) : ∃ upTo rest, s = upTo ++ rest ∧
    (rest = [] ∨ Ended upTo) ∧ Lined upTo (ls.take k) ∧ Lined rest (ls.drop k) := by
  have start : Ended [] := by simp [Ended]
  induction lined generalizing k with
  | nothing => exact ⟨[], [], rfl, .inl rfl, by simpa using .nothing, by simpa using .nothing⟩
  | @unended l filled within =>
    cases k with
    | zero => exact ⟨[], l, rfl, .inr start, .nothing, .unended filled within⟩
    | succ k =>
      have whole : Lined l ([l].take (k + 1)) := by simpa using .unended filled within
      exact ⟨l, [], by simp, .inl rfl, whole, by simpa using .nothing⟩
  | @ended l s ls within plain rest ih =>
    cases k with
    | zero => exact ⟨[], _, rfl, .inr start, .nothing, .ended within plain rest⟩
    | succ k =>
      obtain ⟨upTo, below, rfl, edge, above, later⟩ := ih k
      exact ⟨l ++ '\n' :: upTo, below, by simp, edge.imp_right ended_behind.mpr,
        .ended within plain above, later⟩
  | @returned l s ls within rest ih =>
    cases k with
    | zero => exact ⟨[], _, rfl, .inr start, .nothing, .returned within rest⟩
    | succ k =>
      obtain ⟨upTo, below, rfl, edge, above, later⟩ := ih k
      exact ⟨l ++ '\r' :: '\n' :: upTo, below, by simp, edge.imp_right ended_returned.mpr,
        .returned within above, later⟩

end Text

namespace Frontmatter

variable {ls : List (List Char)}

theorem block_closes (found : blockOf ls ≠ none) : ls[0]? = some delimiter ∧ ∃ k, Closes ls k := by
  rw [ne_eq, blockOf_none, not_or, not_ne_iff] at found
  obtain ⟨opened, closing⟩ := found
  push Not at closing
  refine ⟨opened, Nat.find closing, (Nat.find_spec closing).1, (Nat.find_spec closing).2, ?_⟩
  intro j late before stands
  exact Nat.find_min closing before ⟨late, stands⟩

theorem blockOf_append (found : blockOf ls ≠ none) (ls' : List (List Char)) :
    blockOf (ls ++ ls') = blockOf ls := by
  obtain ⟨opened, k, closed⟩ := block_closes found
  have inside : k < ls.length := (List.getElem?_eq_some_iff.mp closed.2.1).1
  have same : (ls ++ ls').take (k + 1) = ls.take (k + 1) := List.take_append_of_le_length inside
  obtain ⟨first, closed', body⟩ := closed.same same
  rw [blockOf_closed opened closed, blockOf_closed (first.trans opened) closed', body]

theorem check_append {c t : String} (ended : Text.Ended c.toList) (found : block? c ≠ none) :
    check (c ++ t) = check c := by
  have block : block? (c ++ t) = block? c := by
    unfold block? at found ⊢
    rw [String.toList_append, Text.lines_append ended, blockOf_append]
    intro unopened
    exact found (by rw [unopened]; rfl)
  unfold check
  rw [block]

end Frontmatter

def CodeBlock.lowered (n : Nat) (b : CodeBlock) : CodeBlock := { b with line := b.line + n }

def FenceScan.lowered (n : Nat) (s : FenceScan) : FenceScan :=
  ⟨s.blocks.map (·.lowered n), s.unclosedAt.map (· + n)⟩

def FenceScan.behind (blocks : List CodeBlock) (s : FenceScan) : FenceScan :=
  { s with blocks := blocks ++ s.blocks }

namespace Fence

variable {marks more : List (Nat × List Char)} {ls : List (List Char)} {c t : String}

theorem markersFrom_append (n : Nat) (ls ls' : List (List Char)) :
    markersFrom n (ls ++ ls') = markersFrom n ls ++ markersFrom (n + ls.length) ls' := by
  unfold markersFrom
  rw [List.zipIdx_append, List.filterMap_append]

theorem markersFrom_lowered (first n : Nat) (ls : List (List Char)) :
    markersFrom (first + n) ls = (markersFrom first ls).map fun (line, info) => (line + n, info) := by
  induction ls generalizing first with
  | nil => rfl
  | cons l rest ih =>
    have next := ih (first + 1)
    rw [Nat.add_right_comm] at next
    cases mark : marker? l with
    | none => rw [markersFrom_plain mark, markersFrom_plain mark, next]
    | some info => rw [markersFrom_marker mark, markersFrom_marker mark, next, List.map_cons]

theorem paired_lowered (n : Nat) (marks : List (Nat × List Char)) :
    paired (marks.map fun (line, info) => (line + n, info)) = (paired marks).lowered n := by
  induction marks using paired.induct with
  | case1 => rfl
  | case2 line info => rfl
  | case3 line info second rest ih =>
    simp only [List.map_cons, paired, ih]
    rfl

-- The pairs of some markers stay pairs whatever comes behind them, if none is left over.
theorem paired_append (closed : (paired marks).unclosedAt = none) (more : List (Nat × List Char)) :
    paired (marks ++ more) = (paired more).behind (paired marks).blocks := by
  induction marks using paired.induct with
  | case1 => rfl
  | case2 line info => cases closed
  | case3 line info second rest ih =>
    have later := ih closed
    simp only [List.cons_append, paired, later]
    rfl

-- One that is left over is the last, and opens a pair with the first that comes behind it.
theorem paired_open {line : Nat} (left : (paired marks).unclosedAt = some line) :
    ∃ earlier info, marks = earlier ++ [(line, info)] ∧ (paired earlier).unclosedAt = none ∧
      (paired marks).blocks = (paired earlier).blocks := by
  induction marks using paired.induct with
  | case1 => cases left
  | case2 line' info =>
    cases left
    exact ⟨[], info, rfl, rfl, rfl⟩
  | case3 line' info' second rest ih =>
    obtain ⟨earlier, info, equal, closed, blocks⟩ := ih left
    refine ⟨(line', info') :: second :: earlier, info, by rw [equal]; rfl, closed, ?_⟩
    unfold paired
    rw [blocks]

theorem scan_below (n : Nat) (t : String) :
    paired (markersFrom (1 + n) (Text.lines t.toList)) = (scan t).lowered n := by
  rw [markersFrom_lowered, paired_lowered, scan_paired]

theorem marks_append (ended : Text.Ended c.toList) (t : String) :
    markersFrom 1 (Text.lines (c ++ t).toList) = markersFrom 1 (Text.lines c.toList) ++
      markersFrom (1 + (Text.lines c.toList).length) (Text.lines t.toList) := by
  rw [String.toList_append, Text.lines_append ended, markersFrom_append]

theorem scan_append_closed (ended : Text.Ended c.toList) (closed : (scan c).unclosedAt = none)
    (t : String) : scan (c ++ t) =
      ((scan t).lowered (Text.lines c.toList).length).behind (scan c).blocks := by
  rw [scan_paired] at closed
  rw [scan_paired (c ++ t), marks_append ended, paired_append closed, scan_below, scan_paired c]

theorem scan_append_plain (ended : Text.Ended c.toList) (plain : markerLines t = []) :
    scan (c ++ t) = scan c := by
  have unmarked : markersFrom 1 (Text.lines t.toList) = [] := by
    rw [← markersFrom_lines] at plain
    exact List.map_eq_nil_iff.mp plain
  rw [scan_paired, scan_paired, marks_append ended, markersFrom_lowered, unmarked, List.map_nil,
    List.append_nil]

theorem markersFrom_first (first : Nat) (found : markersFrom first ls ≠ []) :
    ∃ k info, k < ls.length ∧ markersFrom first (ls.take (k + 1)) = [(first + k, info)] := by
  induction ls generalizing first with
  | nil => exact absurd rfl found
  | cons l rest ih =>
    cases mark : marker? l with
    | none =>
      rw [markersFrom_plain mark] at found
      obtain ⟨k, info, inside, only⟩ := ih (first + 1) found
      refine ⟨k + 1, info, Nat.succ_lt_succ inside, ?_⟩
      rw [List.take_succ_cons, markersFrom_plain mark, only, Nat.add_right_comm, Nat.add_assoc]
    | some info =>
      refine ⟨0, info, Nat.zero_lt_succ _, ?_⟩
      rw [List.take_succ_cons, markersFrom_marker mark]
      rfl

def CutAtMarker (t upTo rest : String) : Prop :=
  t = upTo ++ rest ∧ (rest = "" ∨ Text.Ended upTo.toList) ∧
    markerLines upTo = [(Text.lines upTo.toList).length]

theorem cut_at_marker (marked : markerLines t ≠ []) : ∃ upTo rest info, CutAtMarker t upTo rest ∧
    ∀ n, markersFrom (1 + n) (Text.lines t.toList) =
      (n + (Text.lines upTo.toList).length, info) ::
        markersFrom (1 + (n + (Text.lines upTo.toList).length)) (Text.lines rest.toList) := by
  have found : markersFrom 1 (Text.lines t.toList) ≠ [] := by
    intro unmarked
    apply marked
    rw [← markersFrom_lines, unmarked]
    rfl
  obtain ⟨k, info, inside, only⟩ := markersFrom_first 1 found
  obtain ⟨upTo, rest, equal, edge, above, below⟩ := (Text.lines_lined t.toList).cut (k + 1)
  have whole : Text.lines t.toList = Text.lines upTo ++ Text.lines rest := by
    rw [above.lines, below.lines, List.take_append_drop]
  have length : (Text.lines upTo).length = 1 + k := by
    rw [above.lines, List.length_take]
    omega
  have last : markersFrom 1 (Text.lines upTo) = [((Text.lines upTo).length, info)] := by
    rw [length, above.lines, only]
  refine ⟨String.ofList upTo, String.ofList rest, info, ⟨?_, ?_, ?_⟩, ?_⟩
  · rw [← String.ofList_append, ← equal, String.ofList_toList]
  · rw [String.toList_ofList]
    exact edge.imp_left fun unmarked => by rw [unmarked]
  · rw [← markersFrom_lines, String.toList_ofList, last]
    rfl
  · intro n
    rw [String.toList_ofList, String.toList_ofList, whole, markersFrom_append, markersFrom_lowered,
      last, Nat.add_comm n, Nat.add_assoc, Nat.add_comm n]
    rfl

theorem scan_append_open {line : Nat} (ended : Text.Ended c.toList)
    (left : (scan c).unclosedAt = some line) (marked : markerLines t ≠ []) :
    ∃ pending upTo rest, CutAtMarker t upTo rest ∧ pending.line = line ∧
      (∃ i info, line = i + 1 ∧ (Text.lines c.toList)[i]? = some (fence ++ info) ∧
        pending.info = String.ofList (Text.trim info)) ∧
      scan (c ++ t) = ((scan rest).lowered ((Text.lines c.toList).length +
        (Text.lines upTo.toList).length)).behind ((scan c).blocks ++ [pending]) := by
  rw [scan_paired] at left
  obtain ⟨earlier, info, equal, closed, blocks⟩ := paired_open left
  obtain ⟨upTo, rest, info', cut, marks⟩ := cut_at_marker marked
  refine ⟨⟨line, String.ofList (Text.trim info)⟩, upTo, rest, cut, rfl, ?_, ?_⟩
  · have present : (line, info) ∈ markersFrom 1 (Text.lines c.toList) := by simp [equal]
    obtain ⟨i, number, stands⟩ := (mem_markersFrom _ _ _ _).mp present
    exact ⟨i, info, number.trans (Nat.add_comm 1 i), stands, rfl⟩
  · rw [scan_paired (c ++ t), marks_append ended, marks, equal, List.append_assoc, paired_append closed,
      scan_paired c, blocks]
    simp only [List.singleton_append, paired, scan_below, FenceScan.behind, List.append_assoc]

end Fence

namespace Pattern

theorem scan_append {c : String} (ended : Text.Ended c.toList) (t : String) :
    scan builtin (c ++ t) = builtin.filter fun p => p.occursIn c || p.occursIn t := by
  unfold scan
  apply List.filter_congr
  intro p present
  rw [Bool.eq_iff_iff, Bool.or_eq_true, builtin_lines present, builtin_lines present,
    builtin_lines present, String.toList_append, Text.lines_append ended]
  simp only [List.mem_append, or_and_right, exists_or]

end Pattern

-- Text put behind a text whose last line is ended. A block stays the block it is; fences are
-- paired as before, and a pending one is closed by the first marker that comes; a pattern is found
-- where it is found in either part.
theorem Document.checks_append (c t : String) (ended : c.toList.getLast? = some '\n') :
    (Frontmatter.block? c ≠ none → Frontmatter.check (c ++ t) = Frontmatter.check c) ∧
    ((Fence.scan c).unclosedAt = none →
      Fence.scan (c ++ t) =
        ((Fence.scan t).lowered (Text.lines c.toList).length).behind (Fence.scan c).blocks) ∧
    (∀ line, (Fence.scan c).unclosedAt = some line →
      (Fence.markerLines t = [] → Fence.scan (c ++ t) = Fence.scan c) ∧
      (Fence.markerLines t ≠ [] → ∃ pending upTo rest, Fence.CutAtMarker t upTo rest ∧
        pending.line = line ∧
        (∃ i info, line = i + 1 ∧ (Text.lines c.toList)[i]? = some (Fence.fence ++ info) ∧
          pending.info = String.ofList (Text.trim info)) ∧
        Fence.scan (c ++ t) = ((Fence.scan rest).lowered ((Text.lines c.toList).length +
          (Text.lines upTo.toList).length)).behind ((Fence.scan c).blocks ++ [pending]))) ∧
    Pattern.scan Pattern.builtin (c ++ t) =
      Pattern.builtin.filter fun p => p.occursIn c || p.occursIn t := by
  have ended : Text.Ended c.toList := by
    intro last equal
    rw [ended] at equal
    exact (Option.some.inj equal).symm
  refine ⟨Frontmatter.check_append ended, ?_, ?_, Pattern.scan_append ended t⟩
  · exact fun closed => Fence.scan_append_closed ended closed t
  · intro line left
    exact ⟨Fence.scan_append_plain ended, Fence.scan_append_open ended left⟩

def lesson : String := "---\ntitle: A\ndescription: B\n---\n```sh\nls\n"

def sequel : String := "fixme\n```\n???\n```py"

-- The block of this one is left open at line 5, and the text put behind it closes it.
theorem lesson_continued : lesson.toList.getLast? = some '\n' ∧
    Frontmatter.check (lesson ++ sequel) = Frontmatter.check lesson ∧
    (∃ pending upTo rest, Fence.CutAtMarker sequel upTo rest ∧ pending.line = 5 ∧
      Fence.scan (lesson ++ sequel) =
        ((Fence.scan rest).lowered (6 + (Text.lines upTo.toList).length)).behind [pending]) ∧
    Pattern.scan Pattern.builtin (lesson ++ sequel) =
      Pattern.builtin.filter fun p => p.occursIn lesson || p.occursIn sequel := by
  have ended : lesson.toList.getLast? = some '\n' := by decide
  obtain ⟨block, -, fences, patterns⟩ := Document.checks_append lesson sequel ended
  have left : Fence.scan lesson = ⟨[], some 5⟩ := by decide
  have marked : Fence.markerLines sequel ≠ [] := by decide
  have length : (Text.lines lesson.toList).length = 6 := by decide
  obtain ⟨pending, upTo, rest, cut, line, -, scanned⟩ := (fences 5 (by rw [left])).2 marked
  rw [length, left] at scanned
  exact ⟨ended, block (by decide), ⟨pending, upTo, rest, cut, line, scanned⟩, patterns⟩

end ChapterCheck
