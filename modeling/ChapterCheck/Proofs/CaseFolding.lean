import ChapterCheck.Pattern.CharSet
import ChapterCheck.Proofs.Utf8Codec
import Mathlib.Data.List.Chain
import Mathlib.Data.List.Nodup

namespace ChapterCheck

theorem CharSet.listed_exact (ranges : List (Nat × Nat)) (c : Char) :
    listed ranges c ↔ ∃ range ∈ ranges, range.1 ≤ c.toNat ∧ c.toNat ≤ range.2 := by
  simp only [listed, List.any_eq_true, Bool.and_eq_true, decide_eq_true_eq]

theorem CharSet.point_exact (c d : Char) :
    (point c).1 ≤ d.toNat ∧ d.toNat ≤ (point c).2 ↔ d = c :=
  Nat.le_antisymm_iff.symm.trans (Char.toNat_inj.trans eq_comm)

namespace Text

def Valid (first last : Nat) : Prop := last < 0xd800 ∨ 0xdfff < first ∧ last < 0x110000

theorem valid_value (valid : Valid first last) (low : first ≤ n) (high : n ≤ last) :
    (Char.ofNat n).toNat = n := by
  unfold Valid at valid
  exact scalar_value (by omega)

def WellFormed : Nat × Nat × Nat × Nat → Prop
  | (first, last, _, image) =>
    first ≤ last ∧ Valid first last ∧ Valid image (image + (last - first))

theorem rows_wellFormed : ∀ row ∈ foldingRows, WellFormed row := by
  unfold WellFormed Valid
  decide +kernel

theorem mem_rowPairs (wellFormed : WellFormed (first, last, step, image))
    (present : (c, folded) ∈ rowPairs (first, last, step, image)) :
    (first ≤ c.toNat ∧ c.toNat ≤ last) ∧
      image ≤ folded.toNat ∧ folded.toNat ≤ image + (last - first) := by
  obtain ⟨forward, keys, images⟩ := wellFormed
  obtain ⟨k, within, equal⟩ := List.mem_map.mp present
  cases equal
  have few : k ≤ (last - first) / step := Nat.lt_succ_iff.mp (List.mem_range.mp within)
  have inside : k * step ≤ last - first :=
    Nat.le_trans (Nat.mul_le_mul_right step few) (Nat.div_mul_le_self _ _)
  rw [valid_value keys (by omega) (by omega), valid_value images (by omega) (by omega)]
  omega

theorem keys_ascending : (foldingPairs.map (·.1.toNat)).IsChain (· < ·) := by decide +kernel

theorem pairs_functional (first : (c, folded) ∈ foldingPairs) (second : (c, other) ∈ foldingPairs) :
    folded = other := by
  have apart : (foldingPairs.map (·.1.toNat)).Nodup :=
    (List.isChain_iff_pairwise.mp keys_ascending).imp fun lower => Nat.ne_of_lt lower
  exact congrArg Prod.snd (List.inj_on_of_nodup_map apart first second rfl)

-- Numbers as the bits of one: two lists have none in common if no bit is.
def bits (ns : List Nat) : Nat := ns.foldr (fun n m => 1 <<< n ||| m) 0

theorem testBit_bits (ns : List Nat) (n : Nat) : (bits ns).testBit n = true ↔ n ∈ ns := by
  induction ns with
  | nil => simp [bits]
  | cons m ns ih =>
    rw [bits, List.foldr_cons, ← bits, Nat.testBit_or, Bool.or_eq_true, ih, Nat.one_shiftLeft,
      Nat.testBit_two_pow]
    simp [eq_comm]

theorem images_apart :
    bits (foldingPairs.map (·.1.toNat)) &&& bits (foldingPairs.map (·.2.toNat)) = 0 := by
  decide +kernel

theorem image_kept (first : (c, folded) ∈ foldingPairs) : (folded, other) ∉ foldingPairs := by
  intro second
  have key := (testBit_bits _ _).mpr (List.mem_map_of_mem (f := (·.1.toNat)) second)
  have image := (testBit_bits _ _).mpr (List.mem_map_of_mem (f := (·.2.toNat)) first)
  have both := Nat.testBit_and (bits (foldingPairs.map (·.1.toNat)))
    (bits (foldingPairs.map (·.2.toNat))) folded.toNat
  rw [images_apart, key, image, Nat.zero_testBit] at both
  cases both

theorem fold_pair (present : (c, folded) ∈ foldingPairs) : fold c = folded := by
  unfold fold
  split
  · rename_i d found
    obtain rfl : _ = c := by simpa using List.find?_some found
    exact pairs_functional (List.mem_of_find?_eq_some found) present
  · rename_i missed
    have other := List.find?_eq_none.mp missed _ present
    simp at other

theorem fold_cases (c : Char) : (c, fold c) ∈ foldingPairs ∨ fold c = c := by
  by_cases present : ∃ folded, (c, folded) ∈ foldingPairs
  · obtain ⟨folded, present⟩ := present
    rw [fold_pair present]
    exact .inl present
  · refine .inr ?_
    unfold fold
    split
    · rename_i d folded found
      obtain rfl : d = c := by simpa using List.find?_some found
      exact absurd ⟨folded, List.mem_of_find?_eq_some found⟩ present
    · rfl

theorem fold_image (present : (c, folded) ∈ foldingPairs) : fold folded = folded := by
  rcases fold_cases folded with further | kept
  · exact absurd further (image_kept present)
  · exact kept

theorem near_pair (near : p ∈ foldingPairsNear ranges) : p ∈ foldingPairs := by
  obtain ⟨row, touched, present⟩ := List.mem_flatMap.mp near
  exact List.mem_flatMap.mpr ⟨row, List.mem_of_mem_filter touched, present⟩

theorem pair_near (present : (c, folded) ∈ foldingPairs)
    (listed : CharSet.listed ranges c ∨ CharSet.listed ranges folded) :
    (c, folded) ∈ foldingPairsNear ranges := by
  obtain ⟨⟨first, last, step, image⟩, row, within⟩ := List.mem_flatMap.mp present
  obtain ⟨key, value⟩ := mem_rowPairs (rows_wellFormed _ row) within
  refine List.mem_flatMap.mpr ⟨_, List.mem_filter.mpr ⟨row, ?_⟩, within⟩
  simp only [CharSet.listed_exact] at listed
  simp only [rowTouches, List.any_eq_true, Bool.or_eq_true, Bool.and_eq_true, decide_eq_true_eq]
  rcases listed with ⟨range, held, low, high⟩ | ⟨range, held, low, high⟩
  · exact ⟨range, held, .inl (by omega)⟩
  · exact ⟨range, held, .inr (by omega)⟩

end Text

namespace CharSet

open Text

theorem mem_foldedForms (ranges : List (Nat × Nat)) (folded : Char) :
    folded ∈ foldedForms ranges ↔
      ∃ c, (c, folded) ∈ foldingPairs ∧ (listed ranges c ∨ listed ranges folded) := by
  simp only [foldedForms, List.mem_eraseDups, List.mem_map, List.mem_filter, Bool.or_eq_true]
  constructor
  · intro held
    obtain ⟨⟨c, folded⟩, ⟨near, touched⟩, rfl⟩ := held
    exact ⟨c, near_pair near, touched⟩
  · intro held
    obtain ⟨c, present, touched⟩ := held
    exact ⟨(c, folded), ⟨pair_near present touched, touched⟩, rfl⟩

theorem listed_points (cs : List Char) (c : Char) : listed (cs.map point) c ↔ c ∈ cs := by
  rw [listed_exact]
  simp only [List.mem_map, exists_exists_and_eq_and, point_exact, exists_eq_right']

theorem listed_anyCase (ranges : List (Nat × Nat)) (c : Char) :
    listed (anyCaseRanges ranges) c ↔
      listed ranges c ∨ c ∈ foldedForms ranges ∨
        ∃ folded ∈ foldedForms ranges, (c, folded) ∈ foldingPairs := by
  have parts : listed (anyCaseRanges ranges) c ↔ listed ranges c ∨
      listed ((foldedForms ranges).map point) c ∨
      listed ((((foldingPairsNear ((foldedForms ranges).map point)).filter fun pair =>
        (foldedForms ranges).contains pair.2).map Prod.fst).map point) c := by
    rw [anyCaseRanges, listed, List.any_append, List.any_append, Bool.or_eq_true, Bool.or_eq_true,
      or_assoc, List.map_map]
    rfl
  rw [parts, listed_points, listed_points]
  refine or_congr_right (or_congr_right ?_)
  simp only [List.mem_map, List.mem_filter, List.contains_iff_mem]
  constructor
  · intro held
    obtain ⟨⟨c, folded⟩, ⟨near, form⟩, rfl⟩ := held
    exact ⟨folded, form, near_pair near⟩
  · intro held
    obtain ⟨folded, form, present⟩ := held
    exact ⟨(c, folded), ⟨pair_near present (.inr ((listed_points _ _).mpr form)), form⟩, rfl⟩

-- Without regard to case ranges hold what folds alike with something they hold.
theorem anyCase_exact (ranges : List (Nat × Nat)) (c : Char) :
    listed (anyCaseRanges ranges) c ↔ ∃ d, listed ranges d ∧ fold c = fold d := by
  rw [listed_anyCase]
  simp only [mem_foldedForms]
  constructor
  · intro holds
    rcases holds with held | ⟨d, present, held | held⟩ | ⟨folded, ⟨d, present, held | held⟩, own⟩
    · exact ⟨c, held, rfl⟩
    · exact ⟨d, held, (fold_image present).trans (fold_pair present).symm⟩
    · exact ⟨c, held, rfl⟩
    · exact ⟨d, held, (fold_pair own).trans (fold_pair present).symm⟩
    · exact ⟨folded, held, (fold_pair own).trans (fold_image present).symm⟩
  · intro alike
    obtain ⟨d, held, same⟩ := alike
    rcases fold_cases c with own | kept
    · rcases fold_cases d with other | kept'
      · exact .inr (.inr ⟨fold c, ⟨d, same ▸ other, .inl held⟩, own⟩)
      · rw [kept'] at same
        exact .inr (.inr ⟨fold c, ⟨c, own, .inr (same ▸ held)⟩, own⟩)
    · rcases fold_cases d with other | kept'
      · rw [← same, kept] at other
        exact .inr (.inl ⟨d, other, .inl held⟩)
      · rw [kept, kept'] at same
        exact .inl (same ▸ held)

end CharSet
end ChapterCheck
