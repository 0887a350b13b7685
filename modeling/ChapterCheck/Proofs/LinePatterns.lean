import ChapterCheck.Proofs.BuiltinPatterns
import ChapterCheck.Proofs.TextLines

namespace ChapterCheck

namespace Text

theorem infix_beside {word l s : List Char} {c : Char} (without : c ∉ word) :
    word <:+: l ++ c :: s ↔ word <:+: l ∨ word <:+: s := by
  have edge : ∀ part, c ∉ part → part <+: c :: s → part = [] := by
    intro part without begins
    rcases List.prefix_cons_iff.mp begins with empty | ⟨rest, rfl, -⟩
    · exact empty
    · exact absurd List.mem_cons_self without
  constructor
  · intro found
    rcases List.infix_append_iff.mp found with left | right | ⟨head, tail, rfl, ending, begins⟩
    · exact .inl left
    · rcases List.infix_cons_iff.mp right with begins | later
      · rw [edge word without begins]
        exact .inl List.nil_infix
      · exact .inr later
    · rw [edge tail (fun present => without (List.mem_append_right _ present)) begins,
        List.append_nil]
      exact .inl ending.isInfix
  · intro aside
    cases aside with
    | inl left => exact left.trans (List.prefix_append _ _).isInfix
    | inr right => exact right.trans ((List.suffix_cons _ _).trans (List.suffix_append _ _)).isInfix

-- A word with no line end in it is in a text just where it is in one of its lines.
theorem infix_lines {word s : List Char} {ls : List (List Char)} (lined : Lined s ls)
    (filled : word ≠ []) (within : '\n' ∉ word) (plain : '\r' ∉ word) :
    word <:+: s ↔ ∃ l ∈ ls, word <:+: l := by
  have nowhere : ¬word <:+: [] := fun found => filled (List.infix_nil.mp found)
  induction lined with
  | nothing => simp [nowhere]
  | unended => simp
  | ended _ _ _ ih =>
    rw [infix_beside within, List.exists_mem_cons_iff]
    exact or_congr_right ih
  | @returned l s ls _ _ ih =>
    have behind : word <:+: '\n' :: s ↔ word <:+: s := by
      rw [← List.nil_append ('\n' :: s), infix_beside within, or_iff_right nowhere]
    rw [infix_beside plain, behind, List.exists_mem_cons_iff]
    exact or_congr_right ih

end Text

namespace Pattern

variable {p : Pattern}

theorem builtin_words (present : p ∈ builtin) : ∃ words : List Char → Prop, p.expr.Tells words ∧
    ∀ word, words word → word ≠ [] ∧ '\n' ∉ word ∧ '\r' ∉ word := by
  rcases builtin_exact.mp present with rfl | rfl | rfl
  · refine ⟨_, placeholder_tells, ?_⟩
    intro word spelled
    have ends : ∀ c ∈ word, c.toUpper ∈ "FIXME".toList := by
      intro c present
      rw [← spelled]
      exact List.mem_map_of_mem present
    exact ⟨placeholder_filled spelled, fun lf => absurd (ends _ lf) (by decide),
      fun cr => absurd (ends _ cr) (by decide)⟩
  · refine ⟨_, lostCharacters_tells, ?_⟩
    intro word run
    obtain ⟨n, enough, rfl⟩ := run
    have filled : n ≠ 0 := by omega
    simp [List.mem_replicate, filled]
  · refine ⟨_, damagedEncoding_tells, ?_⟩
    intro word single
    rw [single]
    decide

theorem builtin_lines (present : p ∈ builtin) (content : String) :
    p.occursIn content = true ↔ ∃ l ∈ Text.lines content.toList, p.expr.Occurs l := by
  obtain ⟨words, tells, inLine⟩ := builtin_words present
  rw [occursIn_words tells]
  simp only [tells.occurs]
  constructor
  · intro stands
    obtain ⟨word, told, found⟩ := stands
    obtain ⟨filled, within, plain⟩ := inLine word told
    obtain ⟨l, line, held⟩ :=
      (Text.infix_lines (Text.lines_lined _) filled within plain).mp found
    exact ⟨l, line, word, told, held⟩
  · intro inLines
    obtain ⟨l, line, word, told, held⟩ := inLines
    obtain ⟨filled, within, plain⟩ := inLine word told
    exact ⟨word, told,
      (Text.infix_lines (Text.lines_lined _) filled within plain).mpr ⟨l, line, held⟩⟩

end Pattern
end ChapterCheck
