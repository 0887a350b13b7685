import ChapterCheck.Pattern.Grammar

namespace ChapterCheck.Pattern

namespace Sign

def mark (s : Sign) : Mark :=
  match s with
  | .bare c _ => .plain c
  | .named _ _ => .escaped s.meant

theorem mark_bare (c : Char) (plain : c ≠ '\\') : (Sign.bare c plain).mark = .plain c := rfl

theorem mark_char (s : Sign) : s.mark.char = s.meant := by cases s <;> rfl

theorem mark_plain {s : Sign} : s.mark = .plain c ↔ s.bare? = some c := by
  cases s <;> simp [mark, bare?]

theorem escapedChar_named (known : Names name) :
    escapedChar? name = some ((controls.lookup name).getD name) := by
  rcases known with control | ⟨ascii, other, left, right⟩
  · simp only [controls, List.map_cons, List.map_nil, List.mem_cons, List.not_mem_nil,
      or_false] at control
    rcases control with rfl | rfl | rfl | rfl | rfl | rfl <;> rfl
  · have unnamed : ∀ c : Char, c.isAlphanum = true → name ≠ c := by
      rintro c alphanumeric rfl
      rw [alphanumeric] at other
      cases other
    have absent : controls.lookup name = none := by simp [controls, List.lookup_eq_none_iff, unnamed]
    simp [escapedChar?, absent, ascii, other, left, right, unnamed]

end Sign

theorem marks_text (signs : List Sign) :
    marks (signs.flatMap Sign.text) = .ok (signs.map Sign.mark) := by
  induction signs with
  | nil => rfl
  | cons s signs ih =>
    cases s with
    | bare c plain =>
      have step : marks (c :: signs.flatMap Sign.text) =
          (.plain c :: ·) <$> marks (signs.flatMap Sign.text) := by simp [marks, plain]
      rw [List.flatMap_cons, Sign.text, List.singleton_append, step, ih]
      rfl
    | named name known =>
      simp only [List.flatMap_cons, Sign.text, List.cons_append, List.nil_append, marks,
        Sign.escapedChar_named known, ih]
      rfl

-- Any number of tokens may be asked for, as long as it is enough.
def Reads (ms rest : List Mark) (ts : List Token) : Prop :=
  ∀ n, ms.length ≤ n → ∃ m, rest.length ≤ m ∧
    tokensWithin n ms = (ts ++ ·) <$> tokensWithin m rest

namespace Reads

theorem nothing (ms : List Mark) : Reads ms ms [] := by
  intro n enough
  refine ⟨n, enough, ?_⟩
  cases tokensWithin n ms <;> rfl

theorem trans (first : Reads ms mid ts) (second : Reads mid rest ts') : Reads ms rest (ts ++ ts') := by
  intro n enough
  obtain ⟨m, left, read⟩ := first n enough
  obtain ⟨k, left', read'⟩ := second m left
  refine ⟨k, left', ?_⟩
  rw [read, read']
  cases tokensWithin k rest with
  | error fault => rfl
  | ok more => exact congrArg Except.ok (List.append_assoc ts ts' more).symm

theorem one (read : readToken c tail = .ok (t, rest)) (shorter : rest.length ≤ tail.length) :
    Reads (.plain c :: tail) rest [t] := by
  intro n enough
  cases n with
  | zero => cases enough
  | succ n =>
    refine ⟨n, Nat.le_trans shorter (Nat.le_of_succ_le_succ enough), ?_⟩
    rw [tokensWithin, read]
    rfl

theorem escaped (c : Char) (rest : List Mark) : Reads (.escaped c :: rest) rest [.literal c] := by
  intro n enough
  cases n with
  | zero => cases enough
  | succ n => exact ⟨n, Nat.le_of_succ_le_succ enough, rfl⟩

theorem whole (read : Reads ms [] ts) : tokensWithin ms.length ms = .ok ts := by
  obtain ⟨m, -, read⟩ := read ms.length (Nat.le_refl _)
  have ended : tokensWithin m [] = .ok [] := by cases m <;> rfl
  rw [read, ended]
  exact congrArg Except.ok (List.append_nil ts)

end Reads

end ChapterCheck.Pattern
