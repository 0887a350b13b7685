import ChapterCheck.Path
import Mathlib.Data.List.Basic

namespace ChapterCheck

namespace Text

def Continues (b : UInt8) : Prop := 0x80 ≤ b.toNat ∧ b.toNat ≤ 0xbf

-- The bytes of a character, by their numbers. The narrower ranges of the second byte keep out
-- longer forms than needed, surrogates and what is no character.
inductive Encoded (c : Char) : List UInt8 → Prop where
  | one {a : UInt8} (most : a.toNat < 0x80) (value : c.toNat = a.toNat) : Encoded c [a]
  | two {a b : UInt8} (least : 0xc2 ≤ a.toNat) (most : a.toNat < 0xe0) (second : Continues b)
      (value : c.toNat = (a.toNat - 0xc0) * 64 + (b.toNat - 0x80)) : Encoded c [a, b]
  | three {a b d : UInt8} (least : 0xe0 ≤ a.toNat) (most : a.toNat < 0xf0) (second : Continues b)
      (first : a.toNat = 0xe0 → 0xa0 ≤ b.toNat) (last : a.toNat = 0xed → b.toNat ≤ 0x9f)
      (third : Continues d)
      (value : c.toNat =
        ((a.toNat - 0xe0) * 64 + (b.toNat - 0x80)) * 64 + (d.toNat - 0x80)) : Encoded c [a, b, d]
  | four {a b d e : UInt8} (least : 0xf0 ≤ a.toNat) (most : a.toNat < 0xf5) (second : Continues b)
      (first : a.toNat = 0xf0 → 0x90 ≤ b.toNat) (last : a.toNat = 0xf4 → b.toNat ≤ 0x8f)
      (third : Continues d) (fourth : Continues e)
      (value : c.toNat = (((a.toNat - 0xf0) * 64 + (b.toNat - 0x80)) * 64 + (d.toNat - 0x80)) * 64 +
        (e.toNat - 0x80)) : Encoded c [a, b, d, e]

variable {b : UInt8} {u : Unfinished} {done : List (Option Char)} {rest : List UInt8} {c : Char}

theorem piecesFrom_done (done : List (Option Char)) (u : Option Unfinished) (bytes : List UInt8) :
    piecesFrom done u bytes = done.reverse ++ piecesFrom [] u bytes := by
  induction bytes generalizing done u with
  | nil => cases u <;> simp [piecesFrom]
  | cons b rest ih =>
    have more : ∀ (found : List (Option Char)) u, piecesFrom (found ++ done) u rest =
        done.reverse ++ piecesFrom found u rest := by
      intro found u
      rw [ih, ih found]
      simp
    cases u with
    | none =>
      simp only [piecesFrom]
      cases lead b with
      | ascii c => exact more [some c] none
      | opens u => exact more [] (some u)
      | invalid => exact more [none] none
    | some u =>
      simp only [piecesFrom]
      split
      · split
        · exact more [some _] none
        · exact more [] (some _)
      · cases lead b with
        | ascii c => exact more [some c, none] none
        | opens v => exact more [none] (some v)
        | invalid => exact more [none, none] none

def piecesIn (u : Unfinished) (bytes : List UInt8) : List (Option Char) :=
  piecesFrom [] (some u) bytes

theorem pieces_ascii (first : lead b = .ascii c) : pieces (b :: rest) = some c :: pieces rest := by
  rw [pieces, piecesFrom, first]
  exact piecesFrom_done [some c] none rest

theorem pieces_opens (first : lead b = .opens u) : pieces (b :: rest) = piecesIn u rest := by
  rw [pieces, piecesFrom, first]
  rfl

theorem pieces_invalid (first : lead b = .invalid) : pieces (b :: rest) = none :: pieces rest := by
  rw [pieces, piecesFrom, first]
  exact piecesFrom_done [none] none rest

def Unfinished.Takes (u : Unfinished) (b : UInt8) : Prop := u.least ≤ b ∧ b ≤ u.greatest

def Unfinished.bitsWith (u : Unfinished) (b : UInt8) : Nat := u.bits * 64 + (b.toNat - 0x80)

theorem piecesIn_last (last : u.missing ≤ 1) (fits : u.Takes b) :
    piecesIn u (b :: rest) = some (Char.ofNat (u.bitsWith b)) :: pieces rest := by
  rw [piecesIn, piecesFrom, if_pos (show u.least ≤ b ∧ b ≤ u.greatest from fits)]
  dsimp only
  rw [if_pos last]
  exact piecesFrom_done [_] none rest

theorem piecesIn_more (more : ¬u.missing ≤ 1) (fits : u.Takes b) :
    piecesIn u (b :: rest) = piecesIn ⟨u.missing - 1, 0x80, 0xbf, u.bitsWith b⟩ rest := by
  rw [piecesIn, piecesFrom, if_pos (show u.least ≤ b ∧ b ≤ u.greatest from fits)]
  dsimp only
  rw [if_neg more]
  rfl

theorem piecesIn_broken (misfit : ¬u.Takes b) :
    piecesIn u (b :: rest) = none :: pieces (b :: rest) := by
  rw [piecesIn, piecesFrom, if_neg (show ¬(u.least ≤ b ∧ b ≤ u.greatest) from misfit)]
  cases leads : lead b with
  | ascii c =>
    rw [pieces_ascii leads]
    exact piecesFrom_done [some c, none] none rest
  | opens v =>
    rw [pieces_opens leads]
    exact piecesFrom_done [none] (some v) rest
  | invalid =>
    rw [pieces_invalid leads]
    exact piecesFrom_done [none, none] none rest

theorem lead_exact (b : UInt8) : lead b =
    if b.toNat < 0x80 then .ascii (Char.ofNat b.toNat)
    else if b.toNat < 0xc2 then .invalid
    else if b.toNat < 0xe0 then .opens ⟨1, 0x80, 0xbf, b.toNat - 0xc0⟩
    else if b.toNat < 0xf0 then
      .opens ⟨2, if b.toNat = 0xe0 then 0xa0 else 0x80, if b.toNat = 0xed then 0x9f else 0xbf,
        b.toNat - 0xe0⟩
    else if b.toNat < 0xf5 then
      .opens ⟨3, if b.toNat = 0xf0 then 0x90 else 0x80, if b.toNat = 0xf4 then 0x8f else 0xbf,
        b.toNat - 0xf0⟩
    else .invalid := by
  simp only [lead, UInt8.lt_iff_toNat_lt, ← UInt8.toNat_inj]
  rfl

theorem byte_exact : b = UInt8.ofNat n ↔ b.toNat = n % 256 := by
  rw [← UInt8.toNat_inj, UInt8.toNat_ofNat']

theorem encoded_exact {bytes : List UInt8} : Encoded c bytes ↔ bytes = String.utf8EncodeChar c := by
  have value : c.val.toNat = c.toNat := rfl
  simp only [String.utf8EncodeChar, value]
  constructor
  · intro encoded
    cases encoded with
    | one most own =>
      rw [if_pos (by omega)]
      simp only [List.cons.injEq, and_true, byte_exact]
      omega
    | two least most second own =>
      obtain ⟨low, high⟩ := second
      rw [if_neg (by omega), if_pos (by omega)]
      simp only [List.cons.injEq, and_true, byte_exact]
      omega
    | three least most second first last third own =>
      obtain ⟨low, high⟩ := second
      obtain ⟨low', high'⟩ := third
      rw [if_neg (by omega), if_neg (by omega), if_pos (by omega)]
      simp only [List.cons.injEq, and_true, byte_exact]
      omega
    | four least most second first last third fourth own =>
      obtain ⟨low, high⟩ := second
      obtain ⟨low', high'⟩ := third
      obtain ⟨low'', high''⟩ := fourth
      rw [if_neg (by omega), if_neg (by omega), if_neg (by omega)]
      simp only [List.cons.injEq, and_true, byte_exact]
      omega
  · rintro rfl
    have valid : c.toNat < 0xd800 ∨ 0xdfff < c.toNat ∧ c.toNat < 0x110000 := c.valid
    generalize equal : c.toNat = n at valid
    split
    · refine .one ?_ ?_ <;> rw [UInt8.toNat_ofNat'] <;> omega
    split
    · refine .two ?_ ?_ ⟨?_, ?_⟩ ?_ <;> simp only [UInt8.toNat_ofNat'] <;> omega
    split
    · refine .three ?_ ?_ ⟨?_, ?_⟩ ?_ ?_ ⟨?_, ?_⟩ ?_ <;> simp only [UInt8.toNat_ofNat'] <;> omega
    · refine .four ?_ ?_ ⟨?_, ?_⟩ ?_ ?_ ⟨?_, ?_⟩ ⟨?_, ?_⟩ ?_ <;> simp only [UInt8.toNat_ofNat'] <;>
        omega

theorem scalar_value (valid : n < 0xd800 ∨ 0xdfff < n ∧ n < 0x110000) :
    (Char.ofNat n).toNat = n := by
  rw [Char.ofNat, dif_pos valid]
  rfl

theorem takes_following : Unfinished.Takes ⟨m, 0x80, 0xbf, bits⟩ b ↔ Continues b := by
  rw [Unfinished.Takes, UInt8.le_iff_toNat_le, UInt8.le_iff_toNat_le]
  rfl

theorem takes_second {p q : Prop} [Decidable p] [Decidable q] {x y : UInt8}
    (least : 0x80 ≤ x.toNat) (greatest : y.toNat ≤ 0xbf) :
    Unfinished.Takes ⟨m, if p then x else 0x80, if q then y else 0xbf, bits⟩ b ↔
      Continues b ∧ (p → x.toNat ≤ b.toNat) ∧ (q → b.toNat ≤ y.toNat) := by
  have low : (0x80 : UInt8).toNat = 0x80 := rfl
  have high : (0xbf : UInt8).toNat = 0xbf := rfl
  rw [Unfinished.Takes, Continues, UInt8.le_iff_toNat_le, UInt8.le_iff_toNat_le]
  by_cases one : p <;> by_cases other : q <;>
    simp only [one, other, if_true, if_false, true_implies, false_implies, and_true, true_and] <;>
    omega

variable {a : UInt8}

theorem lead_two (least : 0xc2 ≤ a.toNat) (most : a.toNat < 0xe0) :
    ∃ u, lead a = .opens u ∧ u.missing = 1 ∧ u.bits = a.toNat - 0xc0 ∧
      ∀ b, u.Takes b ↔ Continues b := by
  have leads : lead a = .opens ⟨1, 0x80, 0xbf, a.toNat - 0xc0⟩ := by
    rw [lead_exact, if_neg (by omega), if_neg (by omega), if_pos most]
  exact ⟨_, leads, rfl, rfl, fun b => takes_following⟩

theorem lead_three (least : 0xe0 ≤ a.toNat) (most : a.toNat < 0xf0) :
    ∃ u, lead a = .opens u ∧ u.missing = 2 ∧ u.bits = a.toNat - 0xe0 ∧
      ∀ b, u.Takes b ↔
        Continues b ∧ (a.toNat = 0xe0 → 0xa0 ≤ b.toNat) ∧ (a.toNat = 0xed → b.toNat ≤ 0x9f) := by
  have leads : lead a = .opens ⟨2, if a.toNat = 0xe0 then 0xa0 else 0x80,
      if a.toNat = 0xed then 0x9f else 0xbf, a.toNat - 0xe0⟩ := by
    rw [lead_exact, if_neg (by omega), if_neg (by omega), if_neg (by omega), if_pos most]
  exact ⟨_, leads, rfl, rfl, fun b => takes_second (by decide) (by decide)⟩

theorem lead_four (least : 0xf0 ≤ a.toNat) (most : a.toNat < 0xf5) :
    ∃ u, lead a = .opens u ∧ u.missing = 3 ∧ u.bits = a.toNat - 0xf0 ∧
      ∀ b, u.Takes b ↔
        Continues b ∧ (a.toNat = 0xf0 → 0x90 ≤ b.toNat) ∧ (a.toNat = 0xf4 → b.toNat ≤ 0x8f) := by
  have leads : lead a = .opens ⟨3, if a.toNat = 0xf0 then 0x90 else 0x80,
      if a.toNat = 0xf4 then 0x8f else 0xbf, a.toNat - 0xf0⟩ := by
    rw [lead_exact, if_neg (by omega), if_neg (by omega), if_neg (by omega), if_neg (by omega),
      if_pos most]
  exact ⟨_, leads, rfl, rfl, fun b => takes_second (by decide) (by decide)⟩

theorem pieces_encoded {bytes : List UInt8} (encoded : Encoded c bytes) :
    pieces (bytes ++ rest) = some c :: pieces rest := by
  cases encoded with
  | one most value =>
    refine pieces_ascii ?_
    rw [lead_exact, if_pos most, ← value, Char.ofNat_toNat]
  | @two a b least most second value =>
    obtain ⟨u, leads, missing, bits, takes⟩ := lead_two least most
    have told : u.bitsWith b = c.toNat := by
      unfold Unfinished.bitsWith
      omega
    rw [List.cons_append, pieces_opens leads, List.cons_append,
      piecesIn_last (by omega) ((takes b).mpr second), told, Char.ofNat_toNat, List.nil_append]
  | @three a b d least most second first last third value =>
    obtain ⟨u, leads, missing, bits, takes⟩ := lead_three least most
    have told : Unfinished.bitsWith ⟨u.missing - 1, 0x80, 0xbf, u.bitsWith b⟩ d = c.toNat := by
      unfold Unfinished.bitsWith
      dsimp only [Unfinished.bitsWith]
      omega
    rw [List.cons_append, pieces_opens leads, List.cons_append,
      piecesIn_more (by omega) ((takes b).mpr ⟨second, first, last⟩), List.cons_append,
      piecesIn_last (by simp [missing]) (takes_following.mpr third), told, Char.ofNat_toNat,
      List.nil_append]
  | @four a b d e least most second first last third fourth value =>
    obtain ⟨u, leads, missing, bits, takes⟩ := lead_four least most
    have told : Unfinished.bitsWith ⟨u.missing - 1 - 1, 0x80, 0xbf,
        Unfinished.bitsWith ⟨u.missing - 1, 0x80, 0xbf, u.bitsWith b⟩ d⟩ e = c.toNat := by
      unfold Unfinished.bitsWith
      dsimp only [Unfinished.bitsWith]
      omega
    rw [List.cons_append, pieces_opens leads, List.cons_append,
      piecesIn_more (by omega) ((takes b).mpr ⟨second, first, last⟩), List.cons_append,
      piecesIn_more (by simp [missing]) (takes_following.mpr third), List.cons_append,
      piecesIn_last (by simp [missing]) (takes_following.mpr fourth), told, Char.ofNat_toNat,
      List.nil_append]

def Reads (bytes : List UInt8) : Prop := ∃ own tail piece, bytes = own ++ tail ∧
  (∀ c, piece = some c → Encoded c own) ∧ pieces bytes = piece :: pieces tail

theorem Encoded.reads {own : List UInt8} (encoded : Encoded c own) (rest : List UInt8) :
    Reads (own ++ rest) :=
  ⟨own, rest, some c, rfl, fun _ same => Option.some.inj same ▸ encoded, pieces_encoded encoded⟩

-- Bytes after which a character is unfinished are damage unless the next one goes on with it.
theorem reads_unless (own rest : List UInt8) (opened : pieces (own ++ rest) = piecesIn u rest) :
    (∃ b tail, rest = b :: tail ∧ u.Takes b) ∨ Reads (own ++ rest) := by
  have damaged (broken : piecesIn u rest = none :: pieces rest) : Reads (own ++ rest) :=
    ⟨own, rest, none, rfl, nofun, opened.trans broken⟩
  cases rest with
  | nil => exact .inr (damaged rfl)
  | cons b tail =>
    by_cases fits : u.Takes b
    · exact .inl ⟨b, tail, rfl, fits⟩
    · exact .inr (damaged (piecesIn_broken fits))

theorem reads_two (least : 0xc2 ≤ a.toNat) (most : a.toNat < 0xe0) : Reads (a :: rest) := by
  obtain ⟨u, leads, missing, bits, takes⟩ := lead_two least most
  rcases reads_unless [a] rest (pieces_opens leads) with ⟨b, rest, rfl, fits⟩ | damaged
  · have second := (takes b).mp fits
    refine (Encoded.two least most second (scalar_value ?_)).reads rest
    obtain ⟨low, high⟩ := second
    omega
  · exact damaged

theorem reads_three (least : 0xe0 ≤ a.toNat) (most : a.toNat < 0xf0) : Reads (a :: rest) := by
  obtain ⟨u, leads, missing, bits, takes⟩ := lead_three least most
  rcases reads_unless [a] rest (pieces_opens leads) with ⟨b, rest, rfl, fits⟩ | damaged
  · have opened : pieces ([a, b] ++ rest) = _ :=
      (pieces_opens leads).trans (piecesIn_more (by omega) fits)
    obtain ⟨second, first, last⟩ := (takes b).mp fits
    obtain ⟨low, high⟩ := second
    rcases reads_unless [a, b] rest opened with ⟨d, rest, rfl, fits'⟩ | damaged
    · have third := takes_following.mp fits'
      refine (Encoded.three least most ⟨low, high⟩ first last third (scalar_value ?_)).reads rest
      obtain ⟨low', high'⟩ := third
      omega
    · exact damaged
  · exact damaged

theorem reads_four (least : 0xf0 ≤ a.toNat) (most : a.toNat < 0xf5) : Reads (a :: rest) := by
  obtain ⟨u, leads, missing, bits, takes⟩ := lead_four least most
  rcases reads_unless [a] rest (pieces_opens leads) with ⟨b, rest, rfl, fits⟩ | damaged
  · have opened (rest : List UInt8) : pieces ([a, b] ++ rest) = _ :=
      (pieces_opens leads).trans (piecesIn_more (by omega) fits)
    obtain ⟨second, first, last⟩ := (takes b).mp fits
    obtain ⟨low, high⟩ := second
    rcases reads_unless [a, b] rest (opened rest) with ⟨d, rest, rfl, fits'⟩ | damaged
    · have reopened : pieces ([a, b, d] ++ rest) = _ :=
        (opened (d :: rest)).trans (piecesIn_more (by simp [missing]) fits')
      have third := takes_following.mp fits'
      obtain ⟨low', high'⟩ := third
      rcases reads_unless [a, b, d] rest reopened with ⟨e, rest, rfl, fits''⟩ | damaged
      · have fourth := takes_following.mp fits''
        refine (Encoded.four least most ⟨low, high⟩ first last ⟨low', high'⟩ fourth
          (scalar_value ?_)).reads rest
        obtain ⟨low'', high''⟩ := fourth
        omega
      · exact damaged
    · exact damaged
  · exact damaged

theorem reads_first (a : UInt8) (rest : List UInt8) : Reads (a :: rest) := by
  have invalid (leads : lead a = .invalid) : Reads (a :: rest) :=
    ⟨[a], rest, none, rfl, nofun, pieces_invalid leads⟩
  have leads := lead_exact a
  split at leads
  · exact (Encoded.one (by assumption) (scalar_value (by omega))).reads rest
  split at leads
  · exact invalid leads
  split at leads
  · exact reads_two (by omega) (by assumption)
  split at leads
  · exact reads_three (by omega) (by assumption)
  split at leads
  · exact reads_four (by omega) (by assumption)
  · exact invalid leads

def Begins (bytes : List UInt8) : Prop :=
  ∃ c own tail, Encoded c own ∧ bytes = own ++ tail

theorem begins_sound (sound : none ∉ pieces (a :: rest)) : Begins (a :: rest) := by
  obtain ⟨own, tail, piece, equal, encoded, found⟩ := reads_first a rest
  cases piece with
  | some c => exact ⟨c, own, tail, encoded c rfl, equal⟩
  | none => exact absurd (by rw [found]; exact List.mem_cons_self) sound

theorem pieces_encode_append (s : List Char) (rest : List UInt8) :
    pieces (encode s ++ rest) = s.map some ++ pieces rest := by
  induction s with
  | nil => rfl
  | cons c s ih =>
    rw [encode, List.flatMap_cons, List.append_assoc, pieces_encoded (encoded_exact.mpr rfl),
      List.map_cons, List.cons_append, ← ih]
    rfl

theorem pieces_encode (s : List Char) : pieces (encode s) = s.map some := by
  have whole := pieces_encode_append s []
  rw [List.append_nil] at whole
  exact whole.trans (List.append_nil _)

-- Bytes are without damage just where they are an encoded text.
theorem sound_exact (bytes : List UInt8) : none ∉ pieces bytes ↔ ∃ s, bytes = encode s := by
  constructor
  · intro sound
    induction length : bytes.length using Nat.strongRecOn generalizing bytes with
    | _ n ih =>
      cases bytes with
      | nil => exact ⟨[], rfl⟩
      | cons a rest =>
        obtain ⟨c, own, tail, encoded, equal⟩ := begins_sound sound
        have filled : 0 < own.length := by cases encoded <;> exact Nat.succ_pos _
        have shorter : tail.length < n := by
          rw [← length, equal, List.length_append]
          omega
        rw [equal, pieces_encoded encoded] at sound
        obtain ⟨s, rfl⟩ := ih _ shorter tail (fun damaged => sound (.tail _ damaged)) rfl
        exact ⟨c :: s, by rw [equal, encoded_exact.mp encoded, encode, encode, List.flatMap_cons]⟩
  · rintro ⟨s, rfl⟩
    rw [pieces_encode]
    simp

theorem decode_encode (s : List Char) : decode? (encode s) = some s := by
  simp [decode?, pieces_encode, List.filterMap_map]

theorem decodeLossy_encode (s : List Char) : decodeLossy (encode s) = s := by
  unfold decodeLossy
  rw [pieces_encode, List.map_map]
  exact List.map_id s

theorem decode_exact (bytes : List UInt8) (s : List Char) :
    decode? bytes = some s ↔ bytes = encode s := by
  constructor
  · intro read
    have sound : none ∉ pieces bytes := by
      intro damaged
      have whole : ¬(pieces bytes).all Option.isSome :=
        fun whole => by simpa using List.all_eq_true.mp whole none damaged
      rw [decode?, if_neg whole] at read
      cases read
    obtain ⟨s', rfl⟩ := (sound_exact bytes).mp sound
    rw [decode_encode] at read
    rw [Option.some.inj read]
  · rintro rfl
    exact decode_encode s

theorem encode_injective {s s' : List Char} (same : encode s = encode s') : s = s' := by
  have read := decode_encode s
  rw [same, decode_encode] at read
  exact (Option.some.inj read).symm

theorem encode_append (s s' : List Char) : encode (s ++ s') = encode s ++ encode s' :=
  List.flatMap_append

-- The first byte of a character tells itself from those behind it.
theorem Encoded.shape {bytes : List UInt8} (encoded : Encoded c bytes) :
    ∃ a following, bytes = a :: following ∧ ¬Continues a ∧ ∀ b ∈ following, Continues b := by
  cases encoded with
  | one => exact ⟨_, [], rfl, by unfold Continues; omega, by simp⟩
  | two _ _ second => exact ⟨_, _, rfl, by unfold Continues; omega, by simpa using second⟩
  | three _ _ second _ _ third =>
    exact ⟨_, _, rfl, by unfold Continues; omega, by simpa using ⟨second, third⟩⟩
  | four _ _ second _ _ third fourth =>
    exact ⟨_, _, rfl, by unfold Continues; omega, by simpa using ⟨second, third, fourth⟩⟩

theorem encode_shape (c : Char) (s : List Char) : ∃ a following,
    encode (c :: s) = a :: following ++ encode s ∧ ¬Continues a ∧ ∀ b ∈ following, Continues b := by
  obtain ⟨a, following, own, leads, inside⟩ := (encoded_exact.mpr rfl : Encoded c _).shape
  exact ⟨a, following, by rw [encode, List.flatMap_cons, own, encode], leads, inside⟩

-- A cut in front of a first byte does not go through a character.
theorem encode_cut {before tail : List UInt8} (whole : before ++ a :: tail = encode s)
    (leads : ¬Continues a) : ∃ s' s'', s = s' ++ s'' ∧ a :: tail = encode s'' := by
  induction s generalizing before with
  | nil => simp [encode] at whole
  | cons c rest ih =>
    cases before with
    | nil => exact ⟨[], c :: rest, rfl, whole⟩
    | cons x before =>
      obtain ⟨first, following, own, -, inside⟩ := encode_shape c rest
      rw [own, List.cons_append, List.cons_append, List.cons.injEq, List.append_eq_append_iff] at whole
      rcases whole.2 with ⟨left, cut, met⟩ | ⟨more, -, behind⟩
      · cases left with
        | nil => exact ⟨[c], rest, rfl, met⟩
        | cons b left =>
          obtain ⟨rfl, -⟩ := List.cons.inj met
          exact absurd (inside a (by simp [cut])) leads
      · obtain ⟨s', s'', rfl, equal⟩ := ih behind.symm
        exact ⟨c :: s', s'', rfl, equal⟩

theorem encode_suffix {s ending : List Char} : encode ending <:+ encode s ↔ ending <:+ s := by
  constructor
  · rintro ⟨before, whole⟩
    cases ending with
    | nil => exact List.nil_suffix
    | cons c rest =>
      obtain ⟨a, following, own, leads, -⟩ := encode_shape c rest
      rw [own, List.cons_append] at whole
      obtain ⟨s', s'', rfl, equal⟩ := encode_cut whole leads
      rw [← List.cons_append, ← own] at equal
      exact ⟨s', by rw [encode_injective equal]⟩
  · rintro ⟨before, rfl⟩
    exact ⟨encode before, (encode_append before ending).symm⟩

-- Wherever the bytes of a word stand in those of a text, the word stands in the text.
theorem encode_inside {s word : List Char} : encode word <:+: encode s ↔ word <:+: s := by
  constructor
  · rintro ⟨before, after, whole⟩
    cases word with
    | nil => exact List.nil_infix
    | cons c rest =>
      obtain ⟨a, following, own, leads, -⟩ := encode_shape c rest
      rw [List.append_assoc, own, List.cons_append, List.cons_append] at whole
      obtain ⟨s', s'', rfl, equal⟩ := encode_cut whole leads
      rw [← List.cons_append, ← List.cons_append, ← own] at equal
      have read : pieces (encode (c :: rest) ++ after) = s''.map some := by
        rw [equal, pieces_encode]
      rw [pieces_encode_append] at read
      obtain ⟨own, behind, rfl, same, -⟩ := List.map_eq_append_iff.mp read.symm
      obtain rfl := List.map_injective_iff.mpr (fun _ _ => Option.some.inj) same
      exact ⟨s', behind, List.append_assoc _ _ _⟩
  · rintro ⟨before, after, rfl⟩
    exact ⟨encode before, encode after, by rw [encode_append, encode_append]⟩

end Text

theorem Path.text_exact (p : Path) (s : String) :
    p.text? = some s ↔ p.bytes = Text.encode s.toList := by
  rw [text?, Option.map_eq_some_iff, ← Text.decode_exact]
  constructor
  · rintro ⟨read, found, rfl⟩
    rw [found, String.toList_ofList]
  · intro found
    exact ⟨_, found, String.ofList_toList⟩

end ChapterCheck
