import ChapterCheck.Text.Blank
import ChapterCheck.Text.Lines
import Mathlib.Data.List.TakeWhile

namespace ChapterCheck.Text

-- What is left behind the last LF, if anything, is a line that nothing has ended.
inductive Lined : List Char → List (List Char) → Prop where
  | nothing : Lined [] []
  | unended (filled : l ≠ []) (within : '\n' ∉ l) : Lined l [l]
  | ended (within : '\n' ∉ l) (plain : l.getLast? ≠ some '\r') (rest : Lined s ls) :
      Lined (l ++ '\n' :: s) (l :: ls)
  | returned (within : '\n' ∉ l) (rest : Lined s ls) : Lined (l ++ '\r' :: '\n' :: s) (l :: ls)

variable {s l : List Char} {ls : List (List Char)}

theorem linesFrom_within (within : '\n' ∉ l) (pending : List Char) :
    linesFrom pending (l ++ s) = linesFrom (l.reverse ++ pending) s := by
  induction l generalizing pending with
  | nil => rfl
  | cons c l ih =>
    obtain ⟨other, within⟩ : '\n' ≠ c ∧ '\n' ∉ l := by simpa using within
    rw [List.cons_append, linesFrom, if_neg (Ne.symm other), ih within]
    simp

theorem lines_unended (filled : l ≠ []) (within : '\n' ∉ l) : lines l = [l] := by
  have whole := linesFrom_within (s := []) within []
  rw [List.append_nil, List.append_nil] at whole
  rw [lines, whole, linesFrom, if_neg (by simpa using filled), List.reverse_reverse]

theorem lines_ended (within : '\n' ∉ l) :
    lines (l ++ '\n' :: s) = (withoutReturn l.reverse).reverse :: lines s := by
  rw [lines, linesFrom_within within, linesFrom, if_pos rfl, List.append_nil]
  rfl

theorem withoutReturn_plain (plain : l.getLast? ≠ some '\r') :
    (withoutReturn l.reverse).reverse = l := by
  rw [← List.head?_reverse] at plain
  unfold withoutReturn
  split
  · rename_i equal
    rw [equal] at plain
    exact absurd rfl plain
  · exact List.reverse_reverse l

theorem Lined.lines (lined : Lined s ls) : lines s = ls := by
  induction lined with
  | nothing => rfl
  | unended filled within => exact lines_unended filled within
  | ended within plain _ ih => rw [lines_ended within, withoutReturn_plain plain, ih]
  | @returned l s ls within _ ih =>
    have within' : '\n' ∉ l ++ ['\r'] := by simpa using within
    rw [show l ++ '\r' :: '\n' :: s = (l ++ ['\r']) ++ '\n' :: s by simp, lines_ended within', ih]
    simp [withoutReturn]

theorem lines_lined (s : List Char) : Lined s (lines s) := by
  induction length : s.length using Nat.strongRecOn generalizing s with
  | ind n ih =>
    by_cases ending : '\n' ∈ s
    · obtain ⟨l, rest, rfl, within⟩ := List.eq_append_cons_of_mem ending
      have shorter : rest.length < n := by
        rw [← length, List.length_append, List.length_cons]
        omega
      have lined := ih _ shorter rest rfl
      rw [lines_ended within]
      by_cases returned : l.getLast? = some '\r'
      · obtain ⟨own, rfl⟩ := List.getLast?_eq_some_iff.mp returned
        have within' : '\n' ∉ own := fun present => within (List.mem_append_left _ present)
        simpa [withoutReturn] using Lined.returned within' lined
      · rw [withoutReturn_plain returned]
        exact .ended within returned lined
    · by_cases filled : s = []
      · cases filled
        exact .nothing
      · rw [lines_unended filled ending]
        exact .unended filled ending

theorem lines_each {ls : List (List Char)} (within : ∀ l ∈ ls, '\n' ∉ l) :
    (lines (ls.flatMap (· ++ ['\n']))).length = ls.length := by
  induction ls with
  | nil => rfl
  | cons l ls ih =>
    have later := ih fun l' present => within l' (List.mem_cons_of_mem l present)
    rw [List.flatMap_cons, List.append_assoc, List.singleton_append,
      lines_ended (within l List.mem_cons_self), List.length_cons, List.length_cons, later]

def Trimmed (s t : List Char) : Prop :=
  ∃ front back, s = front ++ (t ++ back) ∧ (∀ c ∈ front, isBlank c = true) ∧
    (∀ c ∈ back, isBlank c = true) ∧ (∀ c ∈ t.head?, isBlank c = false) ∧
    ∀ c ∈ t.getLast?, isBlank c = false

theorem head_dropWhile (s : List Char) : ∀ c ∈ (s.dropWhile isBlank).head?, isBlank c = false := by
  intro c first
  have stopped := List.head?_dropWhile_not isBlank s
  rw [first] at stopped
  exact stopped

theorem trimEnd_split (s : List Char) : s = trimEnd s ++ (s.reverse.takeWhile isBlank).reverse := by
  rw [trimEnd, ← List.reverse_append, List.takeWhile_append_dropWhile, List.reverse_reverse]

theorem trim_trimmed (s : List Char) : Trimmed s (trim s) := by
  have inside := trimEnd_split (trimStart s)
  refine ⟨s.takeWhile isBlank, ((trimStart s).reverse.takeWhile isBlank).reverse, ?_, ?_, ?_, ?_, ?_⟩
  · rw [trim, ← inside, trimStart, List.takeWhile_append_dropWhile]
  · exact fun c present => List.mem_takeWhile_imp present
  · exact fun c present => List.mem_takeWhile_imp (List.mem_reverse.mp present)
  · intro c first
    refine head_dropWhile s c ?_
    rw [show s.dropWhile isBlank = trimStart s from rfl, inside, List.head?_append]
    rw [show (trimEnd (trimStart s)).head? = some c from first]
    rfl
  · intro c last
    rw [trim, trimEnd, List.getLast?_reverse] at last
    exact head_dropWhile _ c last

end ChapterCheck.Text
