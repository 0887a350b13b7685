import ChapterCheck.Proofs.Utf8Codec

namespace ChapterCheck.Text

def Ascii (c : Char) : Prop := c.toNat < 0x80

instance : Decidable (Ascii c) := Nat.decLt _ _

def AsciiWord (word : List Char) : Prop := word ≠ [] ∧ ∀ c ∈ word, Ascii c

instance : Decidable (AsciiWord word) :=
  have : Decidable (∀ c ∈ word, Ascii c) := List.decidableBAll Ascii word
  instDecidableAnd

variable {b : UInt8} {u : Unfinished} {c : Char} {s t word : List Char} {bytes : List UInt8}

theorem ascii_encoded (ascii : Ascii c) : ∃ b : UInt8, encode [c] = [b] ∧ b.toNat = c.toNat := by
  have encoded : Encoded c (encode [c]) := encoded_exact.mpr (List.flatMap_singleton _ _)
  unfold Ascii at ascii
  generalize encode [c] = own at encoded
  cases encoded with
  | one most value => exact ⟨_, rfl, value.symm⟩
  | two | three | four => omega

theorem encode_ascii (ascii : ∀ c ∈ word, Ascii c) :
    encode word = word.map fun c => UInt8.ofNat c.toNat := by
  induction word with
  | nil => rfl
  | cons c word ih =>
    obtain ⟨first, others⟩ := List.forall_mem_cons.mp ascii
    obtain ⟨b, own, value⟩ := ascii_encoded first
    rw [show encode (c :: word) = encode [c] ++ encode word from encode_append [c] word, own,
      ih others, List.map_cons, ← value, UInt8.ofNat_toNat]
    rfl

theorem encoded_low (low : ∀ b ∈ bytes, b.toNat < 0x80) :
    ∃ word, (∀ c ∈ word, Ascii c) ∧ encode word = bytes := by
  have value (b : UInt8) (present : b ∈ bytes) : (Char.ofNat b.toNat).toNat = b.toNat := by
    have small := low b present
    exact scalar_value (by omega)
  have ascii : ∀ c ∈ bytes.map fun b => Char.ofNat b.toNat, Ascii c := by
    intro c listed
    obtain ⟨b, present, rfl⟩ := List.mem_map.mp listed
    unfold Ascii
    rw [value b present]
    exact low b present
  refine ⟨_, ascii, ?_⟩
  rw [encode_ascii ascii, List.map_map]
  refine (List.map_congr_left ?_).trans (List.map_id bytes)
  intro b present
  dsimp only [Function.comp_apply]
  rw [value b present, UInt8.ofNat_toNat]
  rfl

theorem lead_least (leads : lead b = .opens u) : 0x80 ≤ u.least.toNat := by
  rw [lead_exact] at leads
  split at leads
  · cases leads
  split at leads
  · cases leads
  split at leads
  · cases leads
    exact Nat.le_refl 0x80
  split at leads
  · cases leads
    dsimp only
    split <;> decide
  split at leads
  · cases leads
    dsimp only
    split <;> decide
  · cases leads

theorem misfit_low (least : 0x80 ≤ u.least.toNat) (low : b.toNat < 0x80) : ¬u.Takes b := by
  intro fits
  have inside := UInt8.le_iff_toNat_le.mp fits.1
  omega

-- The second part is for a character that is unfinished where the bytes begin.
theorem pieces_cut (low : b.toNat < 0x80) (before after : List UInt8) :
    pieces (before ++ b :: after) = pieces before ++ some (Char.ofNat b.toNat) :: pieces after ∧
      ∀ u : Unfinished, 0x80 ≤ u.least.toNat → piecesIn u (before ++ b :: after) =
        piecesIn u before ++ some (Char.ofNat b.toNat) :: pieces after := by
  have single : lead b = .ascii (Char.ofNat b.toNat) := by rw [lead_exact, if_pos low]
  induction before with
  | nil =>
    refine ⟨pieces_ascii single, ?_⟩
    intro u least
    rw [List.nil_append, piecesIn_broken (misfit_low least low), pieces_ascii single]
    rfl
  | cons x before ih =>
    have anew : pieces (x :: before ++ b :: after) =
        pieces (x :: before) ++ some (Char.ofNat b.toNat) :: pieces after := by
      rw [List.cons_append]
      cases leads : lead x with
      | ascii c =>
        rw [pieces_ascii leads, pieces_ascii leads, ih.1]
        rfl
      | opens v =>
        rw [pieces_opens leads, pieces_opens leads]
        exact ih.2 v (lead_least leads)
      | invalid =>
        rw [pieces_invalid leads, pieces_invalid leads, ih.1]
        rfl
    refine ⟨anew, ?_⟩
    intro u least
    -- A byte that does not fit ends what is unfinished and is then read anew.
    by_cases fits : u.Takes x
    · rw [List.cons_append]
      by_cases last : u.missing ≤ 1
      · rw [piecesIn_last last fits, piecesIn_last last fits, ih.1]
        rfl
      · rw [piecesIn_more last fits, piecesIn_more last fits]
        exact ih.2 _ (Nat.le_refl 0x80)
    · rw [List.cons_append, piecesIn_broken fits, piecesIn_broken fits, ← List.cons_append, anew]
      rfl

theorem decodeLossy_cut (ascii : Ascii c) (before after : List UInt8) :
    decodeLossy (before ++ (encode [c] ++ after)) =
      decodeLossy before ++ c :: decodeLossy after := by
  obtain ⟨b, own, value⟩ := ascii_encoded ascii
  have low : b.toNat < 0x80 := by rwa [value]
  unfold decodeLossy
  rw [own, List.singleton_append, (pieces_cut low before after).1, value, Char.ofNat_toNat,
    List.map_append, List.map_cons]
  rfl

theorem decodeLossy_split (ascii : Ascii c) (read : decodeLossy bytes = s ++ c :: t) :
    ∃ before after, bytes = before ++ (encode [c] ++ after) ∧ decodeLossy before = s ∧
      decodeLossy after = t := by
  have held : ∃ before after, bytes = before ++ (encode [c] ++ after) ∧ decodeLossy after = t := by
    induction s generalizing bytes with
    | nil =>
      cases bytes with
      | nil => cases read
      | cons a rest =>
        obtain ⟨own, tail, piece, whole, encoded, found⟩ := reads_first a rest
        unfold decodeLossy at read
        rw [found, List.map_cons, List.nil_append, List.cons.injEq] at read
        obtain ⟨first, later⟩ := read
        cases piece with
        | some read =>
          obtain rfl : read = c := first
          refine ⟨[], tail, ?_, later⟩
          rw [whole, encoded_exact.mp (encoded read rfl), encode, List.flatMap_singleton,
            List.nil_append]
        | none =>
          rw [← first] at ascii
          exact absurd ascii (by decide)
    | cons x s ih =>
      cases bytes with
      | nil => cases read
      | cons a rest =>
        obtain ⟨own, tail, piece, whole, -, found⟩ := reads_first a rest
        unfold decodeLossy at read
        rw [found, List.map_cons, List.cons_append, List.cons.injEq] at read
        obtain ⟨before, after, equal, behind⟩ := ih read.2
        exact ⟨own ++ before, after, by rw [whole, equal, List.append_assoc], behind⟩
  obtain ⟨before, after, rfl, behind⟩ := held
  refine ⟨before, after, rfl, ?_, behind⟩
  rw [decodeLossy_cut ascii, behind] at read
  exact List.append_cancel_right read

theorem decodeLossy_nil : decodeLossy bytes = [] ↔ bytes = [] := by
  constructor
  · intro blank
    cases bytes with
    | nil => rfl
    | cons a rest =>
      obtain ⟨own, tail, piece, -, -, found⟩ := reads_first a rest
      unfold decodeLossy at blank
      rw [found] at blank
      cases blank
  · intro blank
    rw [blank]
    rfl

-- So the places of an ASCII word in the bytes are its places in what they are read as, and what
-- stands on either side of one is read by itself.
theorem decodeLossy_around (ascii : AsciiWord word) :
    decodeLossy bytes = s ++ (word ++ t) ↔ ∃ before after,
      bytes = before ++ (encode word ++ after) ∧ decodeLossy before = s ∧
        decodeLossy after = t := by
  induction word generalizing bytes s with
  | nil => exact absurd rfl ascii.1
  | cons c word ih =>
    obtain ⟨first, others⟩ := List.forall_mem_cons.mp ascii.2
    by_cases single : word = []
    · rw [single]
      constructor
      · exact decodeLossy_split first
      · intro placed
        obtain ⟨before, after, rfl, rfl, rfl⟩ := placed
        exact decodeLossy_cut first before after
    · rw [show encode (c :: word) = encode [c] ++ encode word from encode_append [c] word]
      constructor
      · intro read
        obtain ⟨before, rest, rfl, front, later⟩ := decodeLossy_split first read
        have begun : decodeLossy rest = [] ++ (word ++ t) := later
        obtain ⟨between, after, rfl, adjoining, behind⟩ := (ih ⟨single, others⟩).mp begun
        rw [decodeLossy_nil] at adjoining
        rw [adjoining, List.nil_append, ← List.append_assoc (encode [c])]
        exact ⟨before, after, rfl, front, behind⟩
      · intro placed
        obtain ⟨before, after, rfl, rfl, rfl⟩ := placed
        have later : decodeLossy (encode word ++ after) = [] ++ (word ++ decodeLossy after) :=
          (ih ⟨single, others⟩).mpr ⟨[], after, rfl, rfl, rfl⟩
        rw [List.append_assoc, decodeLossy_cut first, later]
        rfl

theorem decodeLossy_inside (ascii : AsciiWord word) :
    word <:+: decodeLossy bytes ↔ encode word <:+: bytes := by
  constructor
  · intro found
    obtain ⟨s, t, whole⟩ := found
    rw [List.append_assoc] at whole
    obtain ⟨before, after, rfl, -, -⟩ := (decodeLossy_around ascii).mp whole.symm
    exact ⟨before, after, List.append_assoc _ _ _⟩
  · intro found
    obtain ⟨before, after, whole⟩ := found
    rw [List.append_assoc] at whole
    have read := (decodeLossy_around ascii).mpr ⟨before, after, whole.symm, rfl, rfl⟩
    exact ⟨_, _, (List.append_assoc _ _ _).trans read.symm⟩

theorem decodeLossy_begins (ascii : AsciiWord word) :
    word <+: decodeLossy bytes ↔ encode word <+: bytes := by
  constructor
  · intro found
    obtain ⟨t, whole⟩ := found
    have begun : decodeLossy bytes = [] ++ (word ++ t) := whole.symm
    obtain ⟨before, after, rfl, first, -⟩ := (decodeLossy_around ascii).mp begun
    rw [decodeLossy_nil] at first
    exact ⟨after, by rw [first]; rfl⟩
  · intro found
    obtain ⟨after, whole⟩ := found
    have read := (decodeLossy_around ascii).mpr ⟨[], after, whole.symm, rfl, rfl⟩
    exact ⟨_, read.symm⟩

theorem decodeLossy_word (ascii : AsciiWord word) :
    decodeLossy bytes = word ↔ bytes = encode word := by
  constructor
  · intro read
    have whole : decodeLossy bytes = [] ++ (word ++ []) := by simpa using read
    obtain ⟨before, after, rfl, front, behind⟩ := (decodeLossy_around ascii).mp whole
    rw [decodeLossy_nil] at front behind
    rw [front, behind, List.nil_append, List.append_nil]
  · intro whole
    rw [whole, decodeLossy_encode]

end ChapterCheck.Text
