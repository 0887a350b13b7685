import ChapterCheck.Frontmatter
import ChapterCheck.Proofs.TextLines

namespace ChapterCheck.Frontmatter

variable {ls : List (List Char)} {k : Nat} {content : String}

-- The line that ends a block: the first delimiter behind the opening line and the line after it.
def Closes (ls : List (List Char)) (k : Nat) : Prop :=
  2 ≤ k ∧ ls[k]? = some delimiter ∧ ∀ j, 2 ≤ j → j < k → ls[j]? ≠ some delimiter

theorem blockOf_none : blockOf ls = none ↔
    ls[0]? ≠ some delimiter ∨ ∀ k, 2 ≤ k → ls[k]? ≠ some delimiter := by
  have short : ls.length ≤ 1 → ∀ k, 2 ≤ k → ls[k]? ≠ some delimiter := by
    intro few k late
    rw [List.getElem?_eq_none (by omega)]
    simp
  match ls with
  | [] => exact iff_of_true rfl (.inr (short (Nat.zero_le 1)))
  | [_] => exact iff_of_true rfl (.inr (short (Nat.le_refl 1)))
  | opening :: first :: rest =>
    have later : (∀ k, 2 ≤ k → (opening :: first :: rest)[k]? ≠ some delimiter) ↔
        delimiter ∉ rest := by
      rw [List.mem_iff_getElem?, not_exists]
      constructor
      · exact fun absent k => absent (k + 2) (Nat.le_add_left 2 k)
      · intro absent k late
        obtain ⟨m, rfl⟩ := Nat.exists_eq_add_of_le' late
        exact absent m
    rw [later, blockOf]
    simp only [List.getElem?_cons_zero, ne_eq, Option.some.injEq, ite_eq_right_iff, reduceCtorEq,
      imp_false, not_and_or]

theorem takeWhile_upTo {l : List α} {p : α → Bool} {m : Nat} {a : α} (stops : l[m]? = some a)
    (stopping : p a = false) (goes : ∀ j, j < m → ∀ b, l[j]? = some b → p b = true) :
    l.takeWhile p = l.take m := by
  induction m generalizing l with
  | zero =>
    cases l with
    | nil => cases stops
    | cons b l =>
      cases stops
      simp [stopping]
  | succ m ih =>
    cases l with
    | nil => cases stops
    | cons b l =>
      rw [List.takeWhile_cons_of_pos (goes 0 (Nat.succ_pos m) b rfl), List.take_succ_cons,
        ih (l := l) stops fun j before c at' => goes (j + 1) (Nat.succ_lt_succ before) c at']

theorem blockOf_closed (opened : ls[0]? = some delimiter) (closed : Closes ls k) :
    blockOf ls = some ((ls.take k).drop 1) := by
  obtain ⟨late, closing, inside⟩ := closed
  obtain ⟨m, rfl⟩ := Nat.exists_eq_add_of_le' late
  match ls with
  | [] => cases opened
  | [_] => cases closing
  | opening :: first :: rest =>
    cases opened
    have closing : rest[m]? = some delimiter := closing
    have body : rest.takeWhile (· ≠ delimiter) = rest.take m := by
      refine takeWhile_upTo closing (by simp) ?_
      intro j before l present
      have other := inside (j + 2) (Nat.le_add_left 2 j) (by omega)
      rw [List.getElem?_cons_succ, List.getElem?_cons_succ, present] at other
      simpa using other
    rw [blockOf, if_pos ⟨rfl, List.mem_of_getElem? closing⟩, body]
    rfl

theorem block_none (lined : Text.Lined content.toList ls) : block? content = none ↔
    ls[0]? ≠ some delimiter ∨ ∀ k, 2 ≤ k → ls[k]? ≠ some delimiter := by
  rw [block?, lined.lines, Option.map_eq_none_iff, blockOf_none]

theorem block_closed (lined : Text.Lined content.toList ls) (opened : ls[0]? = some delimiter)
    (closed : Closes ls k) : block? content = some (Text.joinLines ((ls.take k).drop 1)) := by
  rw [block?, lined.lines, blockOf_closed opened closed]
  rfl

theorem check_unopened (unopened : block? content = none) : check content = some .missingBlock := by
  rw [check, unopened]

theorem check_opened {body : List Char} (found : block? content = some body) : check content =
    if hasKey "title" body = false then some .missingTitle
    else if hasKey "description" body = false then some .missingDescription
    else none := by
  rw [check, found]
  simp

theorem Closes.same {ls' : List (List Char)} (closed : Closes ls k)
    (same : ls'.take (k + 1) = ls.take (k + 1)) :
    ls'[0]? = ls[0]? ∧ Closes ls' k ∧ ls'.take k = ls.take k := by
  have line : ∀ j, j ≤ k → ls'[j]? = ls[j]? := by
    intro j upTo
    have equal := congrArg (·[j]?) same
    simpa [List.getElem?_take, Nat.lt_succ_of_le upTo] using equal
  obtain ⟨late, closing, inside⟩ := closed
  refine ⟨line 0 (Nat.zero_le k), ⟨late, (line k (Nat.le_refl k)).trans closing, ?_⟩, ?_⟩
  · intro j least before
    rw [line j (Nat.le_of_lt before)]
    exact inside j least before
  · have equal := congrArg (List.take k) same
    simpa [List.take_take] using equal

-- There is no block unless the first line is a delimiter and some line from the third on is one.
-- The first of those closes the block, whose keys decide the rest; what comes behind it does not
-- matter.
theorem check_lines (content : String) : ∃ ls, Text.Lined content.toList ls ∧
    (check content = some .missingBlock ↔
      ls[0]? ≠ some delimiter ∨ ∀ k, 2 ≤ k → ls[k]? ≠ some delimiter) ∧
    ∀ k, ls[0]? = some delimiter → Closes ls k →
      let body := Text.joinLines ((ls.take k).drop 1)
      (check content = some .missingTitle ↔ hasKey "title" body = false) ∧
      (check content = some .missingDescription ↔
        hasKey "title" body = true ∧ hasKey "description" body = false) ∧
      (check content = none ↔ hasKey "title" body = true ∧ hasKey "description" body = true) ∧
      ∀ content' ls', Text.Lined content'.toList ls' → ls'.take (k + 1) = ls.take (k + 1) →
        check content' = check content := by
  have lined := Text.lines_lined content.toList
  refine ⟨Text.lines content.toList, lined, ?_, ?_⟩
  · rw [← block_none lined]
    cases found : block? content with
    | none => simp [check_unopened found]
    | some body =>
      rw [check_opened found]
      grind
  · intro k opened closed
    have found := block_closed lined opened closed
    dsimp only
    refine ⟨?_, ?_, ?_, ?_⟩
    · rw [check_opened found]
      grind
    · rw [check_opened found]
      grind
    · rw [check_opened found]
      grind
    · intro content' ls' lined' same
      obtain ⟨first, closed', body⟩ := closed.same same
      rw [check_opened found, check_opened (block_closed lined' (first.trans opened) closed'), body]

example : check "---\n---\ntitle: a\ndescription: b\r\n---" = none := by decide

end ChapterCheck.Frontmatter
