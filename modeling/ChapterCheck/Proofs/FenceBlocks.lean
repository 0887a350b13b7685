import ChapterCheck.Proofs.FencePairing
import ChapterCheck.Proofs.TextLines

namespace ChapterCheck.Fence

def Marks (ls : List (List Char)) (marks : List Nat) : Prop :=
  marks.Pairwise (· < ·) ∧ ∀ n, n ∈ marks ↔ ∃ i l, n = i + 1 ∧ ls[i]? = some l ∧ fence <+: l

theorem mem_markersFrom (n first : Nat) (info : List Char) (ls : List (List Char)) :
    (n, info) ∈ markersFrom first ls ↔ ∃ i, n = first + i ∧ ls[i]? = some (fence ++ info) := by
  simp only [markersFrom, List.mem_filterMap, Prod.exists, Option.map_eq_some_iff, Prod.mk.injEq,
    marker_exact, List.mk_mem_zipIdx_iff_le_and_getElem?_sub]
  constructor
  · rintro ⟨l, line, ⟨least, present⟩, _, rfl, rfl, rfl⟩
    exact ⟨line - first, by omega, present⟩
  · rintro ⟨i, rfl, present⟩
    exact ⟨_, _, ⟨Nat.le_add_right _ _, by rwa [Nat.add_sub_cancel_left]⟩, _, rfl, rfl, rfl⟩

theorem markersFrom_ascending (first : Nat) (ls : List (List Char)) :
    (markersFrom first ls).Pairwise fun m n => m.1 < n.1 := by
  induction ls generalizing first with
  | nil => exact .nil
  | cons l rest ih =>
    cases mark : marker? l with
    | none =>
      rw [markersFrom_plain mark]
      exact ih (first + 1)
    | some info =>
      rw [markersFrom_marker mark]
      refine .cons ?_ (ih (first + 1))
      rintro ⟨n, later⟩ present
      obtain ⟨i, rfl, -⟩ := (mem_markersFrom n _ later rest).mp present
      dsimp only
      omega

theorem markerLines_marks (content : String) :
    Marks (Text.lines content.toList) (markerLines content) := by
  rw [← markersFrom_lines]
  refine ⟨List.pairwise_map.mpr (markersFrom_ascending 1 _), ?_⟩
  intro n
  simp only [List.mem_map, Prod.exists, exists_and_right, exists_eq_right, mem_markersFrom]
  constructor
  · rintro ⟨info, i, rfl, present⟩
    exact ⟨i, _, Nat.add_comm _ _, present, List.prefix_append _ _⟩
  · rintro ⟨i, _, rfl, present, info, rfl⟩
    exact ⟨info, i, Nat.add_comm _ _, present⟩

theorem paired_block {marks : List (Nat × List Char)} {block : CodeBlock} {i : Nat}
    (found : (paired marks).blocks[i]? = some block) :
    ∃ info, marks[2 * i]? = some (block.line, info) ∧ block.info = String.ofList (Text.trim info) := by
  induction marks using paired.induct generalizing i with
  | case1 => simp [paired] at found
  | case2 line info => simp [paired] at found
  | case3 line info second rest ih =>
    cases i with
    | zero =>
      obtain rfl := Option.some.inj found
      exact ⟨info, rfl, rfl⟩
    | succ i =>
      have later : (paired rest).blocks[i]? = some block := found
      exact ih later

-- The marker lines of a content, in order, are taken two by two: the first of each two gives a
-- block its number and, behind the backticks, its info, and one that is left over is unclosed.
theorem scan_marks (content : String) : ∃ ls marks, Text.Lined content.toList ls ∧ Marks ls marks ∧
    (scan content).blocks.length = marks.length / 2 ∧
    (∀ i block, (scan content).blocks[i]? = some block →
      marks[2 * i]? = some block.line ∧
        ∃ n l, block.line = n + 1 ∧ ls[n]? = some l ∧
          Text.Trimmed (l.drop 3) block.info.toList) ∧
    (scan content).unclosedAt = if marks.length % 2 = 1 then marks.getLast? else none := by
  obtain ⟨half, unclosed⟩ := scan_counts content
  refine ⟨Text.lines content.toList, markerLines content, Text.lines_lined _,
    markerLines_marks content, half, ?_, unclosed⟩
  intro i block found
  rw [scan_paired] at found
  obtain ⟨info, mark, told⟩ := paired_block found
  refine ⟨by rw [← markersFrom_lines, List.getElem?_map, mark]; rfl, ?_⟩
  obtain ⟨n, number, present⟩ := (mem_markersFrom _ _ _ _).mp (List.mem_of_getElem? mark)
  refine ⟨n, fence ++ info, number.trans (Nat.add_comm _ _), present, ?_⟩
  rw [told, String.toList_ofList, show (fence ++ info).drop 3 = info from rfl]
  exact Text.trim_trimmed info

end ChapterCheck.Fence
