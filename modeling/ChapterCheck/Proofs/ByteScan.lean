import ChapterCheck.Proofs.AsciiStretches
import ChapterCheck.Proofs.BuiltinPatterns
import ChapterCheck.Proofs.FencePairing
import ChapterCheck.Proofs.FrontmatterBlock

namespace ChapterCheck

-- What there is to find in the bytes of a document, without reading them as text.
namespace ByteScan

def lineOf (part : List UInt8) : List UInt8 :=
  if part.getLast? = some 0x0d then part.dropLast else part

def lines (bytes : List UInt8) : List (List UInt8) :=
  let parts := bytes.splitOn 0x0a
  parts.dropLast.map lineOf ++ parts.getLast?.toList.filter (· ≠ [])

def markers (bytes : List UInt8) : List Nat :=
  (((lines bytes).zipIdx 1).filter fun (l, _) => [0x60, 0x60, 0x60].isPrefixOf l).map Prod.snd

def delimiter : List UInt8 := [0x2d, 0x2d, 0x2d]

def Unopened (bytes : List UInt8) : Prop :=
  (lines bytes)[0]? ≠ some delimiter ∨ ∀ k, 2 ≤ k → (lines bytes)[k]? ≠ some delimiter

def Damaged (bytes : List UInt8) : Prop :=
  (¬∃ s, bytes = Text.encode s) ∨ [0xef, 0xbf, 0xbd] <:+: bytes

def upper (b : UInt8) : UInt8 := if 0x61 ≤ b ∧ b ≤ 0x7a then b - 0x20 else b

def HoldsPlaceholder (bytes : List UInt8) : Prop :=
  ∃ word, word.map upper = [0x46, 0x49, 0x58, 0x4d, 0x45] ∧ word <:+: bytes

variable {l bytes rest : List UInt8} {word : List Char} {c : Char}

theorem lines_unended (filled : l ≠ []) (within : 0x0a ∉ l) : lines l = [l] := by
  unfold lines
  rw [List.splitOn_eq_singleton within]
  simp [filled]

theorem lines_ended (within : 0x0a ∉ l) (rest : List UInt8) :
    lines (l ++ 0x0a :: rest) = lineOf l :: lines rest := by
  unfold lines
  rw [List.splitOn_append_cons_self_of_not_mem within]
  cases parts : rest.splitOn 0x0a with
  | nil => exact absurd parts (List.splitOn_ne_nil _ _)
  | cons first others => rfl

theorem lineOf_returned (own : List UInt8) : lineOf (own ++ [0x0d]) = own := by
  simp [lineOf]

section Decoding

open Text

theorem newline_ascii : Ascii '\n' := by decide

theorem return_ascii : Ascii '\r' := by decide

theorem newline_inside (within : 0x0a ∉ l) : '\n' ∉ decodeLossy l := by
  intro present
  obtain ⟨s, t, whole⟩ := List.append_of_mem present
  obtain ⟨before, after, rfl, -, -⟩ := decodeLossy_split newline_ascii whole
  exact within (List.mem_append_right _ List.mem_cons_self)

theorem return_last (last : (decodeLossy l).getLast? = some '\r') : l.getLast? = some 0x0d := by
  obtain ⟨s, whole⟩ := List.getLast?_eq_some_iff.mp last
  obtain ⟨before, after, rfl, -, behind⟩ := decodeLossy_split return_ascii whole
  rw [decodeLossy_nil.mp behind]
  exact List.getLast?_concat

-- The lines of the bytes are those of the text, each of them read by itself.
theorem lines_decoded (bytes : List UInt8) :
    Lined (decodeLossy bytes) ((lines bytes).map decodeLossy) := by
  -- A line takes at least its LF with it, so what is left is shorter.
  induction length : bytes.length using Nat.strongRecOn generalizing bytes with
  | ind n ih =>
    by_cases ending : 0x0a ∈ bytes
    · obtain ⟨l, rest, rfl, within⟩ := List.eq_append_cons_of_mem ending
      have shorter : rest.length < n := by
        rw [← length, List.length_append, List.length_cons]
        omega
      have lined := ih _ shorter rest rfl
      have cut : decodeLossy (l ++ 0x0a :: rest) = decodeLossy l ++ '\n' :: decodeLossy rest :=
        decodeLossy_cut newline_ascii l rest
      rw [lines_ended within, cut, List.map_cons]
      by_cases returned : l.getLast? = some 0x0d
      · obtain ⟨own, rfl⟩ := List.getLast?_eq_some_iff.mp returned
        have within' : 0x0a ∉ own := fun present => within (List.mem_append_left _ present)
        have cut' : decodeLossy (own ++ [0x0d]) = decodeLossy own ++ ['\r'] :=
          decodeLossy_cut return_ascii own []
        rw [lineOf_returned, cut', List.append_assoc]
        exact .returned (newline_inside within') lined
      · rw [lineOf, if_neg returned]
        exact .ended (newline_inside within) (fun last => returned (return_last last)) lined
    · by_cases filled : bytes = []
      · rw [filled]
        exact .nothing
      · rw [lines_unended filled ending]
        exact .unended (fun blank => filled (decodeLossy_nil.mp blank)) (newline_inside ending)

theorem markers_decoded (bytes : List UInt8) :
    Fence.markerLines (String.ofList (decodeLossy bytes)) = markers bytes := by
  have same (l : List UInt8) :
      Fence.fence.isPrefixOf (decodeLossy l) = [0x60, 0x60, 0x60].isPrefixOf l := by
    rw [Bool.eq_iff_iff, List.isPrefixOf_iff_prefix, List.isPrefixOf_iff_prefix]
    exact decodeLossy_begins (by decide)
  unfold Fence.markerLines markers
  rw [String.toList_ofList, (lines_decoded bytes).lines, List.zipIdx_map, List.filter_map,
    List.map_map]
  simp only [Function.comp_def, Prod.map_fst, Prod.map_snd, same, id_eq]

theorem unopened_decoded (bytes : List UInt8) :
    Frontmatter.block? (String.ofList (decodeLossy bytes)) = none ↔ Unopened bytes := by
  have lined : Lined (String.ofList (decodeLossy bytes)).toList
      ((lines bytes).map decodeLossy) := by
    rw [String.toList_ofList]
    exact lines_decoded bytes
  have same (k : Nat) : ((lines bytes).map decodeLossy)[k]? = some Frontmatter.delimiter ↔
      (lines bytes)[k]? = some delimiter := by
    have word (l : List UInt8) : decodeLossy l = Frontmatter.delimiter ↔ l = delimiter :=
      decodeLossy_word (by decide)
    rw [List.getElem?_map, Option.map_eq_some_iff]
    simp only [word, exists_eq_right]
  rw [Frontmatter.block_none lined]
  simp only [ne_eq, same]
  rfl

theorem damaged_decoded (bytes : List UInt8) :
    replacement ∈ decodeLossy bytes ↔ Damaged bytes := by
  have word : encode [replacement] = [0xef, 0xbf, 0xbd] := by decide
  unfold Damaged
  rw [← word]
  by_cases sound : ∃ s, bytes = encode s
  · obtain ⟨s, rfl⟩ := sound
    rw [decodeLossy_encode, encode_inside, List.singleton_infix_iff,
      or_iff_right (not_not_intro ⟨s, rfl⟩)]
  · have damaged : none ∈ pieces bytes := by
      apply Classical.byContradiction
      intro whole
      exact sound ((sound_exact bytes).mp whole)
    exact iff_of_true (List.mem_map_of_mem damaged) (.inl sound)

theorem upper_value : ∀ n < 128,
    (upper (UInt8.ofNat n)).toNat = (Char.ofNat n).toUpper.toNat := by
  decide +kernel

theorem placeholder_bytes (ascii : ∀ c ∈ word, Ascii c) :
    word.map Char.toUpper = "FIXME".toList ↔
      (encode word).map upper = [0x46, 0x49, 0x58, 0x4d, 0x45] := by
  have values : ((encode word).map upper).map UInt8.toNat =
      (word.map Char.toUpper).map Char.toNat := by
    rw [encode_ascii ascii, List.map_map, List.map_map, List.map_map]
    apply List.map_congr_left
    intro c present
    have value := upper_value c.toNat (ascii c present)
    rw [Char.ofNat_toNat] at value
    exact value
  constructor
  · intro spelled
    rw [spelled] at values
    exact List.map_injective_iff.mpr (fun _ _ => UInt8.toNat_inj.mp) values
  · intro spelled
    rw [spelled] at values
    exact List.map_injective_iff.mpr (fun _ _ => Char.toNat_inj.mp) values.symm

theorem upper_low {b : UInt8} (low : (upper b).toNat < 0x80) : b.toNat < 0x80 := by
  unfold upper at low
  split at low
  · rename_i lowercase
    have most := UInt8.le_iff_toNat_le.mp lowercase.2
    exact Nat.lt_of_le_of_lt most (by decide)
  · exact low

theorem toUpper_ascii (ascii : Ascii c.toUpper) : Ascii c := by
  unfold Ascii at ascii ⊢
  rw [toUpper_value] at ascii
  split at ascii <;> omega

theorem placeholder_decoded (bytes : List UInt8) :
    (∃ word, word.map Char.toUpper = "FIXME".toList ∧ word <:+: decodeLossy bytes) ↔
      HoldsPlaceholder bytes := by
  constructor
  · intro found
    obtain ⟨word, spelled, held⟩ := found
    have ascii : ∀ c ∈ word, Ascii c := by
      intro c present
      have letter := List.mem_map_of_mem (f := Char.toUpper) present
      rw [spelled] at letter
      have letters : AsciiWord "FIXME".toList := by decide
      exact toUpper_ascii (letters.2 _ letter)
    have filled := Pattern.placeholder_filled spelled
    exact ⟨encode word, (placeholder_bytes ascii).mp spelled,
      (decodeLossy_inside ⟨filled, ascii⟩).mp held⟩
  · intro found
    obtain ⟨l, spelled, held⟩ := found
    have low : ∀ b ∈ l, b.toNat < 0x80 := by
      intro b present
      have letter := List.mem_map_of_mem (f := upper) present
      rw [spelled] at letter
      have letters : ∀ b : UInt8, b ∈ [0x46, 0x49, 0x58, 0x4d, 0x45] → b.toNat < 0x80 := by
        simp
      exact upper_low (letters _ letter)
    obtain ⟨word, ascii, rfl⟩ := encoded_low low
    have spelled := (placeholder_bytes ascii).mpr spelled
    have filled := Pattern.placeholder_filled spelled
    exact ⟨word, spelled, (decodeLossy_inside ⟨filled, ascii⟩).mpr held⟩

end Decoding

end ByteScan
end ChapterCheck
