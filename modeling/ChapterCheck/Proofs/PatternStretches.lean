import ChapterCheck.Pattern.Language

namespace ChapterCheck

namespace Expr

abbrev Stretches := List Char → List Char → List Char → Prop

variable {p q r : Stretches} {P Q : Nat → Prop} {b s a : List Char}

def Then (p q : Stretches) : Stretches := fun before stretch after =>
  ∃ head tail, stretch = head ++ tail ∧ p before head (tail ++ after) ∧ q (before ++ head) tail after

def Counted (one : Stretches) (counts : Nat → Prop) : Stretches := fun before stretch after =>
  ∃ n, counts n ∧ Rounds one n before stretch after

def plus (P Q : Nat → Prop) (n : Nat) : Prop := ∃ i j, P i ∧ Q j ∧ n = i + j

theorem plus_left (n k : Nat) : plus (· = n) P k ↔ n ≤ k ∧ P (k - n) := by
  constructor
  · rintro ⟨_, j, rfl, more, rfl⟩
    exact ⟨Nat.le_add_right _ _, by rwa [Nat.add_sub_cancel_left]⟩
  · rintro ⟨enough, more⟩
    exact ⟨n, k - n, rfl, more, by omega⟩

theorem plus_right (n k : Nat) : plus P (· = n) k ↔ n ≤ k ∧ P (k - n) := by
  constructor
  · rintro ⟨i, _, few, rfl, rfl⟩
    exact ⟨Nat.le_add_left _ _, by rwa [Nat.add_sub_cancel]⟩
  · rintro ⟨enough, few⟩
    exact ⟨k - n, n, few, rfl, by omega⟩

theorem then_assoc : Then (Then p q) r = Then p (Then q r) := by
  funext b s a
  apply propext
  constructor
  · rintro ⟨_, last, rfl, ⟨head, middle, rfl, first, second⟩, third⟩
    exact ⟨head, middle ++ last, by simp, by simpa using first, middle, last, rfl, second,
      by simpa using third⟩
  · rintro ⟨head, _, rfl, first, middle, last, rfl, second, third⟩
    exact ⟨head ++ middle, last, by simp, ⟨head, middle, rfl, by simpa using first, second⟩,
      by simpa using third⟩

theorem rounds_add (m n : Nat) : Rounds p (m + n) = Then (Rounds p m) (Rounds p n) := by
  induction m with
  | zero =>
    funext b s a
    rw [Nat.zero_add]
    apply propext
    constructor
    · intro rounds
      exact ⟨[], s, rfl, rfl, by simpa using rounds⟩
    · rintro ⟨_, tail, rfl, rfl, rounds⟩
      simpa using rounds
  | succ m ih =>
    rw [Nat.add_right_comm, show Rounds p (m + n + 1) = Then p (Rounds p (m + n)) from rfl, ih,
      ← then_assoc]
    rfl

theorem rounds_one : Rounds p 1 = p := by
  funext b s a
  simp [Rounds]

theorem rounds_empty (n : Nat) : Rounds p n b [] a ↔ n = 0 ∨ p b [] a := by
  induction n with
  | zero => simp [Rounds]
  | succ n ih =>
    simp only [Rounds, List.nil_eq_append_iff, Nat.add_one_ne_zero, false_or]
    constructor
    · rintro ⟨_, _, ⟨rfl, rfl⟩, first, -⟩
      exact first
    · intro first
      exact ⟨[], [], ⟨rfl, rfl⟩, first, by rw [List.append_nil]; exact ih.mpr (.inr first)⟩

theorem counted_exact (n : Nat) : Rounds p n = Counted p (· = n) := by
  funext b s a
  simp [Counted]

theorem counted_then : Then (Counted p P) (Counted p Q) = Counted p (plus P Q) := by
  funext b s a
  apply propext
  constructor
  · rintro ⟨head, tail, rfl, ⟨i, few, first⟩, j, more, second⟩
    refine ⟨i + j, ⟨i, j, few, more, rfl⟩, ?_⟩
    rw [rounds_add]
    exact ⟨head, tail, rfl, first, second⟩
  · rintro ⟨_, ⟨i, j, few, more, rfl⟩, rounds⟩
    rw [rounds_add] at rounds
    obtain ⟨head, tail, equal, first, second⟩ := rounds
    exact ⟨head, tail, equal, ⟨i, few, first⟩, j, more, second⟩

theorem counted_or :
    (Counted p P b s a ∨ Counted p Q b s a) = Counted p (fun n => P n ∨ Q n) b s a := by
  simp only [Counted, or_and_right, exists_or]

theorem then_none : ¬Then p (Counted q fun _ => False) b s a := by
  rintro ⟨_, _, -, -, _, impossible, -⟩
  exact impossible

theorem then_or : (Then p (Counted q P) b s a ∨ Then p (Counted q Q) b s a) =
    Then p (Counted q fun n => P n ∨ Q n) b s a := by
  simp only [Then, ← counted_or, and_or_left, exists_or]

theorem then_done : Then p (Counted q (· = 0)) = p := by
  funext b s a
  simp [Then, ← counted_exact, Rounds]

theorem then_empty : Then p q b [] a ↔ p b [] a ∧ q b [] a := by
  simp only [Then, List.nil_eq_append_iff]
  constructor
  · rintro ⟨_, _, ⟨rfl, rfl⟩, first, second⟩
    exact ⟨first, by simpa using second⟩
  · rintro ⟨first, second⟩
    exact ⟨[], [], ⟨rfl, rfl⟩, first, by simpa using second⟩

-- The first part takes the first character, or it is empty and the second takes it.
theorem then_cons (c : Char) : Then p q b (c :: s) a ↔
    (p b [] (c :: (s ++ a)) ∧ q b (c :: s) a) ∨
      ∃ head tail, s = head ++ tail ∧ p b (c :: head) (tail ++ a) ∧ q (b ++ [c] ++ head) tail a := by
  constructor
  · rintro ⟨head, tail, equal, first, second⟩
    rcases List.cons_eq_append_iff.mp equal with empty | filled
    · obtain ⟨rfl, rfl⟩ := empty
      exact .inl ⟨by simpa using first, by simpa using second⟩
    · obtain ⟨head, rfl, rfl⟩ := filled
      exact .inr ⟨head, tail, rfl, first, by simpa using second⟩
  · rintro (⟨first, second⟩ | ⟨head, tail, rfl, first, second⟩)
    · exact ⟨[], c :: s, rfl, by simpa using first, by simpa using second⟩
    · exact ⟨c :: head, tail, rfl, first, by simpa using second⟩

-- What is left of a stretch once its first character, which stands behind b, was read.
def Behind (p : Stretches) (b : List Char) (c : Char) : Stretches := fun _ stretch after =>
  p b (c :: stretch) after

-- Of some rounds the first that is not empty takes the first character. The rounds before it
-- are empty and all at one place, so there may be any number of them.
theorem rounds_begun (n : Nat) (c : Char) : Rounds p n b (c :: s) a ↔
    ∃ m, m + 1 ≤ n ∧ (n = m + 1 ∨ p b [] (c :: (s ++ a))) ∧
      Then (Behind p b c) (Rounds p m) (b ++ [c]) s a := by
  induction n with
  | zero => simp [Rounds]
  | succ n ih =>
    rw [show Rounds p (n + 1) = Then p (Rounds p n) from rfl, then_cons, ih]
    constructor
    · rintro (⟨empty, m, fewer, -, begun⟩ | begun)
      · exact ⟨m, by omega, .inr empty, begun⟩
      · exact ⟨n, Nat.le_refl _, .inl rfl, begun⟩
    · rintro ⟨m, fewer, last | empty, begun⟩
      · cases last
        exact .inr begun
      · by_cases last : m = n
        · cases last
          exact .inr begun
        · exact .inl ⟨empty, m, by omega, .inr empty, begun⟩

def Allows (least : Nat) (more : Option Nat) (n : Nat) : Prop :=
  least ≤ n ∧ ∀ extra ∈ more, n ≤ least + extra

-- How many rounds may follow the first that takes text: where a round may be empty, those that
-- are missing can have come before it.
def Leaves (least : Nat) (more : Option Nat) (skippable : Prop) (m : Nat) : Prop :=
  (least ≤ m + 1 ∨ skippable) ∧ ∀ extra ∈ more, m + 1 ≤ least + extra

theorem times_counted (body : Expr) (least : Nat) (more : Option Nat) (lazy : Bool) :
    (times body least more lazy).Describes = Counted body.Describes (Allows least more) := by
  funext b s a
  simp only [Describes, Counted, Allows, and_assoc]

theorem times_exactly (body : Expr) (n : Nat) (lazy : Bool) :
    (times body n (some 0) lazy).Describes = Counted body.Describes (· = n) := by
  rw [times_counted]
  congr 1
  funext k
  simp only [Allows, Option.mem_some_iff, eq_iff_iff]
  grind

theorem times_upTo (body : Expr) (most : Nat) (lazy : Bool) :
    (times body 0 (some most) lazy).Describes = Counted body.Describes (· ≤ most) := by
  rw [times_counted]
  congr 1
  funext n
  simp [Allows]

theorem times_atLeast (body : Expr) (least : Nat) (lazy : Bool) :
    (times body least none lazy).Describes = Counted body.Describes (least ≤ ·) := by
  rw [times_counted]
  congr 1
  funext n
  simp [Allows]

theorem counted_begun {least : Nat} {more : Option Nat} (c : Char) :
    Counted p (Allows least more) b (c :: s) a ↔
      Then (Behind p b c) (Counted p (Leaves least more (p b [] (c :: (s ++ a))))) (b ++ [c]) s a := by
  simp only [Counted, rounds_begun]
  constructor
  · rintro ⟨n, ⟨enough, most⟩, m, fewer, reason, head, tail, equal, first, rest⟩
    refine ⟨head, tail, equal, first, m, ⟨?_, ?_⟩, rest⟩
    · rcases reason with exactly | empty
      · exact .inl (by omega)
      · exact .inr empty
    · intro extra given
      exact Nat.le_trans fewer (most extra given)
  · rintro ⟨head, tail, equal, first, m, ⟨reason, most⟩, rest⟩
    have begun : Then (Behind p b c) (Rounds p m) (b ++ [c]) s a :=
      ⟨head, tail, equal, first, rest⟩
    rcases reason with enough | empty
    · exact ⟨m + 1, ⟨enough, most⟩, m, Nat.le_refl _, .inl rfl, begun⟩
    · refine ⟨max least (m + 1), ⟨Nat.le_max_left _ _, ?_⟩, m, Nat.le_max_right _ _, .inr empty, begun⟩
      intro extra given
      exact Nat.max_le.mpr ⟨Nat.le_add_right _ _, most extra given⟩

theorem counted_ahead (c : Char) : Counted p (fun _ => True) b (c :: s) a ↔
    Then (Behind p b c) (Counted p fun _ => True) (b ++ [c]) s a := by
  have free : Allows 0 none = fun _ => True := by
    funext n
    simp [Allows]
  have left : ∀ skippable, Leaves 0 none skippable = fun _ => True := by
    intro skippable
    funext m
    simp [Leaves]
  rw [← free, counted_begun, left, free]

theorem counted_more : Counted p (1 ≤ ·) = Then p (Counted p fun _ => True) := by
  have once : p = Counted p (· = 1) := by rw [← counted_exact, rounds_one]
  calc Counted p (1 ≤ ·) = Counted p (plus (· = 1) fun _ => True) := by
        congr 1
        funext n
        simp [plus_left]
    _ = Then p (Counted p fun _ => True) := by rw [← counted_then, ← once]

theorem counted_nothing : Counted p (fun _ => True) b [] a :=
  ⟨0, trivial, rfl⟩

theorem acceptsEmpty_exact (e : Expr) (b a : List Char) :
    e.acceptsEmpty b.getLast? a.head? = true ↔ e.Describes b [] a := by
  induction e generalizing b a with
  | empty => simp [acceptsEmpty, Describes]
  | chars set => simp [acceptsEmpty, Describes]
  | start eachLine => simp [acceptsEmpty, Describes]
  | finish eachLine => simp [acceptsEmpty, Describes]
  | seq first second one two =>
    rw [acceptsEmpty, Bool.and_eq_true, one, two]
    exact then_empty.symm
  | either left right one two => simp only [acceptsEmpty, Describes, Bool.or_eq_true, one, two]
  | times body least more lazy ih =>
    simp only [acceptsEmpty, Describes, Bool.or_eq_true, decide_eq_true_eq, ih, rounds_empty]
    constructor
    · rintro (optional | empty)
      · exact ⟨0, Nat.le_of_eq optional, fun _ _ => Nat.zero_le _, .inl rfl⟩
      · exact ⟨least, Nat.le_refl _, fun _ _ => Nat.le_add_right _ _, .inr empty⟩
    · rintro ⟨n, enough, -, optional | empty⟩
      · exact .inl (by omega)
      · exact .inr empty

theorem acceptsEmpty_ahead (e : Expr) (b a : List Char) (c : Char) :
    e.acceptsEmpty b.getLast? (some c) = true ↔ e.Describes b [] (c :: a) :=
  e.acceptsEmpty_exact b (c :: a)

theorem chars_ahead {set : CharSet} {b s a : List Char} {c : Char} :
    (chars set).Describes b (c :: s) a ↔ s = [] ∧ set.contains c = true := by
  simp only [Describes, List.cons.injEq]
  constructor
  · rintro ⟨_, ⟨rfl, rest⟩, held⟩
    exact ⟨rest, held⟩
  · rintro ⟨rest, held⟩
    exact ⟨c, ⟨rfl, rest⟩, held⟩

theorem describes_char (c : Char) : (char c).Describes b s a ↔ s = [c] := by
  have single : ∀ d : Char, (CharSet.single c).contains d = true ↔ d = c := by
    intro d
    simp only [CharSet.contains, CharSet.single, CharSet.listed, CharSet.point, List.any_cons,
      List.any_nil, Bool.or_false, Bool.bne_false, Bool.and_eq_true, decide_eq_true_eq]
    rw [← Char.toNat_inj]
    omega
  simp [char, Describes, single]

theorem describes_any (set : CharSet) :
    (any set).Describes b s a ↔ ∀ c ∈ s, set.contains c = true := by
  have unbound : (fun n : Nat => 0 ≤ n) = fun _ => True := funext fun n => eq_true (Nat.zero_le n)
  rw [any, times_atLeast, unbound]
  induction s generalizing b with
  | nil => simp [counted_nothing]
  | cons c rest ih =>
    rw [counted_ahead, List.forall_mem_cons]
    constructor
    · rintro ⟨head, tail, rfl, taken, more⟩
      obtain ⟨rfl, held⟩ := chars_ahead.mp taken
      exact ⟨held, ih.mp more⟩
    · rintro ⟨held, more⟩
      exact ⟨[], rest, rfl, chars_ahead.mpr ⟨rfl, held⟩, ih.mpr more⟩

theorem sequence_cons (e : Expr) (rest : List Expr) :
    (sequence (e :: rest)).Describes = Then e.Describes (sequence rest).Describes := by
  cases rest with
  | nil =>
    rw [sequence, sequence, show Expr.empty.Describes = Counted Expr.empty.Describes (· = 0) from
      counted_exact 0, then_done]
  | cons f rest => rfl

theorem describes_word (w : List Char) : (sequence (w.map char)).Describes b s a ↔ s = w := by
  induction w generalizing b s a with
  | nil => rfl
  | cons c w ih =>
    rw [List.map_cons, sequence_cons]
    simp [Then, describes_char, ih]

end Expr
end ChapterCheck
