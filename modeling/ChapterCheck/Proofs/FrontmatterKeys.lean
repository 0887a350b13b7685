import ChapterCheck.Frontmatter
import ChapterCheck.Proofs.PatternReading
import Mathlib.Data.List.Induction

namespace ChapterCheck.Frontmatter

variable {word : String} {body b s a : List Char}

def Placed (word : String) (body : List Char) : Prop :=
  ∃ above indent gap rest, body = above ++ (indent ++ (word.toList ++ (gap ++ ':' :: rest))) ∧
    (above = [] ∨ above.getLast? = some '\n') ∧ '\n' ∉ indent ∧
    (∀ c ∈ indent, Text.isBlank c = true) ∧ ∀ c ∈ gap, Text.isBlank c = true

theorem blank_exact (c : Char) :
    (CharSet.mk Text.blankRanges false).contains c = Text.isBlank c := by
  rw [CharSet.contains, Bool.bne_false]
  rfl

theorem key_exact : (key word).Describes b s a ↔
    (b = [] ∨ b.getLast? = some '\n') ∧ ∃ lead gap, s = lead ++ (word.toList ++ (gap ++ [':'])) ∧
      (∀ c ∈ lead, Text.isBlank c = true) ∧ ∀ c ∈ gap, Text.isBlank c = true := by
  simp only [key, Expr.sequence_cons, Expr.word, Expr.Then, Expr.describes_any, Expr.describes_word,
    Expr.describes_char, blank_exact]
  constructor
  · rintro ⟨_, _, rfl, ⟨rfl, edge⟩, lead, _, rfl, blank, _, _, rfl, rfl, gap, _, rfl, more, _, _, rfl,
      rfl, rfl⟩
    exact ⟨edge.imp_right And.right, lead, gap, by simp, blank, more⟩
  · rintro ⟨edge, lead, gap, rfl, blank, more⟩
    exact ⟨[], _, rfl, ⟨rfl, edge.imp_right fun line => ⟨rfl, line⟩⟩, lead, _, rfl, blank,
      word.toList, _, rfl, rfl, gap, _, rfl, more, [':'], [], rfl, rfl, rfl⟩

theorem own_line (lead : List Char) : ∃ ended own, lead = ended ++ own ∧ '\n' ∉ own ∧
    (ended = [] ∨ ended.getLast? = some '\n') := by
  induction lead using List.reverseRecOn with
  | nil => exact ⟨[], [], rfl, List.not_mem_nil, .inl rfl⟩
  | append_singleton lead c ih =>
    by_cases ending : c = '\n'
    · cases ending
      exact ⟨lead ++ ['\n'], [], by simp, List.not_mem_nil, .inr (by simp)⟩
    · obtain ⟨ended, own, rfl, within, edge⟩ := ih
      refine ⟨ended, own ++ [c], by simp, ?_, edge⟩
      simpa [within] using Ne.symm ending

-- White space in front of the word may have begun on an earlier line. What of it stands on the
-- word's own line is enough, since that line starts behind an LF as well.
theorem key_placed : (key word).Occurs body ↔ Placed word body := by
  constructor
  · rintro ⟨above, _, after, rfl, described⟩
    obtain ⟨edge, lead, gap, rfl, blank, more⟩ := key_exact.mp described
    obtain ⟨ended, own, rfl, within, line⟩ := own_line lead
    refine ⟨above ++ ended, own, gap, after, by simp, ?_, within, ?_, more⟩
    · rcases line with rfl | last
      · simpa using edge
      · exact .inr (by simp [last])
    · exact fun c present => blank c (List.mem_append_right _ present)
  · rintro ⟨above, indent, gap, rest, rfl, edge, -, blank, more⟩
    exact ⟨above, _, rest, by simp, key_exact.mpr ⟨edge, indent, gap, rfl, blank, more⟩⟩

theorem hasKey_placed (word : String) (body : List Char) :
    (hasKey word body = true ↔ (key word).Occurs body) ∧
      (hasKey word body = true ↔ Placed word body) :=
  ⟨(key word).occursIn_exact body, ((key word).occursIn_exact body).trans key_placed⟩

example : hasKey "title" "author: x\n \u2003title \n\t\n: A".toList = true := by decide

end ChapterCheck.Frontmatter
