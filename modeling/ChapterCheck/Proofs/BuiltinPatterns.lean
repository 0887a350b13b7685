import ChapterCheck.Pattern
import ChapterCheck.Proofs.PatternReading
import Mathlib.Data.List.Infix
import Mathlib.Data.List.Sublists

namespace ChapterCheck

namespace Expr

variable {b s a : List Char} {e : Expr} {words : List Char → Prop}

-- An expression that describes some words, wherever they stand.
def Tells (e : Expr) (words : List Char → Prop) : Prop :=
  ∀ before stretch after, e.Describes before stretch after ↔ words stretch

theorem Tells.occurs (tells : e.Tells words) (text : List Char) :
    e.Occurs text ↔ ∃ word, words word ∧ word <:+: text := by
  constructor
  · intro occurrence
    obtain ⟨before, word, after, rfl, described⟩ := occurrence
    exact ⟨word, (tells _ _ _).mp described, before, after, rfl⟩
  · intro stands
    obtain ⟨word, told, before, after, rfl⟩ := stands
    exact ⟨before, word, after, rfl, (tells _ _ _).mpr told⟩

theorem char_tells (c : Char) : (char c).Tells (· = [c]) := fun _ _ _ => describes_char c

theorem letters_tell (same : Char → Char) (set : Char → CharSet) (word : List Char)
    (each : ∀ letter ∈ word, ∀ c, (set letter).contains c = true ↔ same c = letter) :
    (sequence (word.map fun letter => chars (set letter))).Tells fun s => s.map same = word := by
  intro b s a
  induction word generalizing b s with
  | nil => exact List.map_eq_nil_iff.symm
  | cons letter word ih =>
    obtain ⟨own, others⟩ := List.forall_mem_cons.mp each
    rw [List.map_cons, sequence_cons]
    dsimp only at ih ⊢
    rw [List.map_eq_cons_iff]
    constructor
    · intro described
      obtain ⟨_, tail, rfl, ⟨c, rfl, held⟩, later⟩ := described
      exact ⟨c, tail, rfl, (own c).mp held, (ih others _ _).mp later⟩
    · intro spelled
      obtain ⟨c, tail, rfl, equal, later⟩ := spelled
      exact ⟨[c], tail, rfl, ⟨c, rfl, (own c).mpr equal⟩, (ih others _ _).mpr later⟩

theorem rounds_char (c : Char) (n : Nat) :
    Rounds (char c).Describes n b s a ↔ s = List.replicate n c := by
  induction n generalizing b s with
  | zero => rfl
  | succ n ih => simp [Rounds, describes_char, ih, List.replicate_succ]

theorem repeated_tells (c : Char) (least : Nat) (lazy : Bool) :
    (times (char c) least none lazy).Tells fun s => ∃ n, least ≤ n ∧ s = List.replicate n c := by
  intro b s a
  simp only [times_atLeast, Counted, rounds_char]

end Expr

theorem toUpper_value (c : Char) : c.toUpper.toNat =
    if 0x61 ≤ c.toNat ∧ c.toNat ≤ 0x7a then c.toNat - 0x20 else c.toNat := by
  have shifted : (c.val + ('A'.val - 'a'.val)).toNat = (c.toNat + (2 ^ 32 - 0x20)) % 2 ^ 32 :=
    UInt32.toNat_add _ _
  unfold Char.toUpper
  split
  · rename_i lowercase
    obtain ⟨least, most⟩ : 0x61 ≤ c.toNat ∧ c.toNat ≤ 0x7a := lowercase
    rw [if_pos ⟨least, most⟩]
    refine shifted.trans ?_
    omega
  · rename_i other
    exact (if_neg other).symm

namespace Pattern

open ChapterCheck.Expr

def placeholder : Pattern :=
  ⟨"/FIXME/i", .sequence ("FIXME".toList.map fun letter => .chars (CharSet.single letter).anyCase)⟩

def lostCharacters : Pattern := ⟨"/\\?\\?\\?\\?/g", .times (.char '?') 4 none false⟩

def damagedEncoding : Pattern := ⟨"/\\uFFFD/g", .char Text.replacement⟩

theorem builtin_three : builtin = [placeholder, lostCharacters, damagedEncoding] := by
  decide +kernel

-- No character beyond ASCII folds like one of these letters.
theorem anyCase_letter : ∀ letter ∈ "FIXME".toList, 0x41 ≤ letter.toNat ∧ letter.toNat ≤ 0x5a ∧
    (CharSet.single letter).anyCase = ⟨[CharSet.point letter,
      (letter.toNat + 0x20, letter.toNat + 0x20), CharSet.point letter], false⟩ := by
  intro letter present
  have listed : letter = 'F' ∨ letter = 'I' ∨ letter = 'X' ∨ letter = 'M' ∨ letter = 'E' := by
    simpa using present
  rcases listed with rfl | rfl | rfl | rfl | rfl <;> decide +kernel

theorem placeholder_tells : placeholder.expr.Tells fun s => s.map Char.toUpper = "FIXME".toList := by
  refine letters_tell Char.toUpper _ _ ?_
  intro letter present c
  obtain ⟨least, most, set⟩ := anyCase_letter letter present
  rw [set, ← Char.toNat_inj, toUpper_value]
  simp only [CharSet.contains, CharSet.listed, CharSet.point, List.any_cons, List.any_nil,
    Bool.or_false, Bool.bne_false, Bool.or_eq_true, Bool.and_eq_true, decide_eq_true_eq]
  split <;> omega

theorem placeholder_filled {word : List Char} (spelled : word.map Char.toUpper = "FIXME".toList) :
    word ≠ [] := by
  intro empty
  rw [empty] at spelled
  cases spelled

theorem lostCharacters_tells :
    lostCharacters.expr.Tells fun s => ∃ n, 4 ≤ n ∧ s = List.replicate n '?' :=
  repeated_tells '?' 4 false

theorem damagedEncoding_tells : damagedEncoding.expr.Tells (· = [Text.replacement]) :=
  char_tells Text.replacement

variable {p : Pattern} {words : List Char → Prop}

theorem occursIn_words (tells : p.expr.Tells words) (content : String) :
    p.occursIn content = true ↔ ∃ word, words word ∧ word <:+: content.toList := by
  rw [occursIn, occursIn_exact, tells.occurs]

theorem lostCharacters_occurs (content : String) :
    lostCharacters.occursIn content = true ↔ List.replicate 4 '?' <:+: content.toList := by
  rw [occursIn_words lostCharacters_tells]
  constructor
  · intro run
    obtain ⟨_, ⟨n, enough, rfl⟩, found⟩ := run
    have four : List.replicate 4 '?' <:+: List.replicate n '?' :=
      List.infix_replicate_iff.mpr ⟨enough, rfl⟩
    exact four.trans found
  · intro found
    exact ⟨_, ⟨4, Nat.le_refl 4, rfl⟩, found⟩

theorem damagedEncoding_occurs (content : String) :
    damagedEncoding.occursIn content = true ↔ Text.replacement ∈ content.toList := by
  rw [occursIn_words damagedEncoding_tells, exists_eq_left, List.singleton_infix_iff]

theorem builtin_exact :
    p ∈ builtin ↔ p = placeholder ∨ p = lostCharacters ∨ p = damagedEncoding := by
  simp [builtin_three]

theorem builtin_labels :
    builtin.map label = ["/FIXME/i", "/\\?\\?\\?\\?/g", "/\\uFFFD/g"] := by
  rw [builtin_three]
  rfl

theorem mem_scan_builtin (present : p ∈ builtin) (content : String) :
    p.label ∈ (scan builtin content).map label ↔ p.occursIn content = true := by
  have apart : (builtin.map label).Nodup := by
    rw [builtin_labels]
    decide
  rw [scan, List.mem_map]
  constructor
  · intro labelled
    obtain ⟨q, found, same⟩ := labelled
    obtain ⟨listed, occurs⟩ := List.mem_filter.mp found
    rwa [List.inj_on_of_nodup_map apart listed present same] at occurs
  · intro occurs
    exact ⟨p, List.mem_filter.mpr ⟨present, occurs⟩, rfl⟩

-- A text for each of them in which the others do not occur.
def betrayals : List (String × String) :=
  [("/FIXME/i", "fixMe"), ("/\\?\\?\\?\\?/g", "????"), ("/\\uFFFD/g", "\ufffd")]

theorem scan_betrayals : ∀ chosen ∈ betrayals.sublists,
    (scan builtin (String.join (chosen.map Prod.snd))).map label = chosen.map Prod.fst := by
  rw [builtin_three]
  decide +kernel

-- What the built-in patterns find is told by the text alone: a word in any mixture of cases, a
-- run of question marks, a replacement character. Each is found or not whatever the others are.
theorem scan_builtin (content : String) :
    ((scan builtin content).map label).Sublist
      ["/FIXME/i", "/\\?\\?\\?\\?/g", "/\\uFFFD/g"] ∧
    ("/FIXME/i" ∈ (scan builtin content).map label ↔
      ∃ word, word.map Char.toUpper = "FIXME".toList ∧ word <:+: content.toList) ∧
    ("/\\?\\?\\?\\?/g" ∈ (scan builtin content).map label ↔
      List.replicate 4 '?' <:+: content.toList) ∧
    ("/\\uFFFD/g" ∈ (scan builtin content).map label ↔ Char.ofNat 0xfffd ∈ content.toList) ∧
    ∀ chosen, chosen.Sublist ["/FIXME/i", "/\\?\\?\\?\\?/g", "/\\uFFFD/g"] →
      ∃ content', (scan builtin content').map label = chosen := by
  have first : placeholder ∈ builtin := builtin_exact.mpr (.inl rfl)
  have second : lostCharacters ∈ builtin := builtin_exact.mpr (.inr (.inl rfl))
  have third : damagedEncoding ∈ builtin := builtin_exact.mpr (.inr (.inr rfl))
  refine ⟨?_, ?_, ?_, ?_, ?_⟩
  · rw [← builtin_labels]
    exact List.filter_sublist.map label
  · exact (mem_scan_builtin first content).trans (occursIn_words placeholder_tells content)
  · exact (mem_scan_builtin second content).trans (lostCharacters_occurs content)
  · exact (mem_scan_builtin third content).trans (damagedEncoding_occurs content)
  · intro chosen ordered
    have labels : chosen.Sublist (betrayals.map Prod.fst) := ordered
    obtain ⟨own, listed, rfl⟩ := List.sublist_map_iff.mp labels
    exact ⟨_, scan_betrayals own (List.mem_sublists.mpr listed)⟩

end Pattern
end ChapterCheck
