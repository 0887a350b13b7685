import ChapterCheck.Fence

namespace ChapterCheck.Fence

def fence : List Char := List.replicate 3 '\x60'

theorem marker_exact {l info : List Char} : marker? l = some info ↔ l = fence ++ info := by
  unfold marker?
  split
  · simp [fence, List.replicate]
  · rename_i other
    constructor
    · intro absent
      cases absent
    · intro opened
      exact absurd opened (other info)

theorem marker_none {l : List Char} : marker? l = none ↔ ¬fence <+: l := by
  rw [Option.eq_none_iff_forall_ne_some]
  constructor
  · intro absent opened
    obtain ⟨info, whole⟩ := opened
    exact absent info (marker_exact.mpr whole.symm)
  · intro plain info found
    exact plain ⟨info, (marker_exact.mp found).symm⟩

def markersFrom (n : Nat) (ls : List (List Char)) : List (Nat × List Char) :=
  (ls.zipIdx n).filterMap fun (l, line) => (marker? l).map fun info => (line, info)

def markerLines (content : String) : List Nat :=
  (((Text.lines content.toList).zipIdx 1).filter fun (l, _) => fence.isPrefixOf l).map Prod.snd

theorem markersFrom_plain (plain : marker? l = none) :
    markersFrom n (l :: ls) = markersFrom (n + 1) ls := by
  simp [markersFrom, plain]

theorem markersFrom_marker (opened : marker? l = some info) :
    markersFrom n (l :: ls) = (n, info) :: markersFrom (n + 1) ls := by
  simp [markersFrom, opened]

theorem markersFrom_lines (content : String) :
    (markersFrom 1 (Text.lines content.toList)).map Prod.fst = markerLines content := by
  have counted : ∀ (ls : List (List Char)) (n : Nat), (markersFrom n ls).map Prod.fst =
      ((ls.zipIdx n).filter fun (l, _) => fence.isPrefixOf l).map Prod.snd := by
    intro ls
    induction ls with
    | nil => intro n; rfl
    | cons l rest ih =>
      intro n
      cases mark : marker? l with
      | none =>
        have plain := marker_none.mp mark
        simp [markersFrom_plain mark, ih, List.isPrefixOf_iff_prefix, plain]
      | some info =>
        have opened : fence <+: l := ⟨info, (marker_exact.mp mark).symm⟩
        simp [markersFrom_marker mark, ih, List.isPrefixOf_iff_prefix, opened]
  exact counted _ 1

-- Markers go in pairs: the first of each opens a block and the second closes it. One that
-- is left over opens a block that nothing closes.
def paired : List (Nat × List Char) → FenceScan
  | [] => {}
  | [(line, _)] => { unclosedAt := some line }
  | (line, info) :: _ :: rest =>
    ⟨⟨line, String.ofList (Text.trim info)⟩ :: (paired rest).blocks, (paired rest).unclosedAt⟩

theorem scanFrom_paired (ls : List (List Char)) (closed : List CodeBlock) (n : Nat) :
    scanFrom closed none n ls =
        ⟨closed.reverse ++ (paired (markersFrom n ls)).blocks,
          (paired (markersFrom n ls)).unclosedAt⟩ ∧
      ∀ line info, scanFrom closed (some ⟨line, String.ofList (Text.trim info)⟩) n ls =
        ⟨closed.reverse ++ (paired ((line, info) :: markersFrom n ls)).blocks,
          (paired ((line, info) :: markersFrom n ls)).unclosedAt⟩ := by
  -- Both states in one induction, since a marker turns each into the other.
  induction ls generalizing closed n with
  | nil => simp [scanFrom, markersFrom, paired]
  | cons l rest ih =>
    cases mark : marker? l with
    | none =>
      rw [markersFrom_plain mark]
      simp only [scanFrom, mark]
      exact ih closed (n + 1)
    | some info =>
      rw [markersFrom_marker mark]
      simp only [scanFrom, mark]
      refine ⟨(ih closed (n + 1)).2 n info, ?_⟩
      intro line opening
      rw [(ih _ (n + 1)).1]
      simp [paired]

theorem scan_paired (content : String) :
    scan content = paired (markersFrom 1 (Text.lines content.toList)) := by
  rw [scan, (scanFrom_paired _ [] 1).1]
  rfl

theorem paired_counts (marks : List (Nat × List Char)) :
    (paired marks).blocks.length = marks.length / 2 ∧
      (paired marks).unclosedAt =
        if marks.length % 2 = 1 then (marks.map Prod.fst).getLast? else none := by
  induction marks using paired.induct with
  | case1 => simp [paired]
  | case2 line info => simp [paired]
  | case3 line info second rest ih =>
    obtain ⟨blocks, unclosed⟩ := ih
    have parity : (rest.length + 1 + 1) % 2 = rest.length % 2 := by omega
    have half : (rest.length + 1 + 1) / 2 = rest.length / 2 + 1 := by omega
    simp only [paired, List.length_cons, blocks, half, parity, unclosed, true_and]
    split
    · rename_i odd
      cases rest with
      | nil => cases odd
      | cons third rest => simp
    · rfl

-- A content has half as many blocks as marker lines; of an odd number the last is left over.
theorem scan_counts (content : String) :
    (scan content).blocks.length = (markerLines content).length / 2 ∧
      (scan content).unclosedAt =
        if (markerLines content).length % 2 = 1 then (markerLines content).getLast? else none := by
  rw [scan_paired, ← markersFrom_lines, List.length_map]
  exact paired_counts _

end ChapterCheck.Fence
