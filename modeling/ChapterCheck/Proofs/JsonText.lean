import ChapterCheck.Json
import Mathlib.Data.List.Forall2

namespace ChapterCheck.Json

inductive Token where
  | openArray
  | closeArray
  | openObject
  | closeObject
  | comma
  | colon
  | null
  | number (n : Nat)
  | text (s : String)
  deriving DecidableEq

mutual

def tokens : Json → List Token
  | .null => [.null]
  | .number n => [.number n]
  | .text s => [.text s]
  | .array items => .openArray :: [Token.comma].intercalate (itemTokens items) ++ [.closeArray]
  | .object fields =>
    .openObject :: [Token.comma].intercalate (fieldTokens fields) ++ [.closeObject]

def itemTokens : List Json → List (List Token)
  | [] => []
  | item :: rest => tokens item :: itemTokens rest

def fieldTokens : List (String × Json) → List (List Token)
  | [] => []
  | (name, value) :: rest => (.text name :: .colon :: tokens value) :: fieldTokens rest

end

theorem induct {P : Json → Prop} (null : P .null) (number : ∀ n, P (.number n))
    (text : ∀ s, P (.text s)) (array : ∀ items, (∀ j ∈ items, P j) → P (.array items))
    (object : ∀ fields, (∀ f ∈ fields, P f.2) → P (.object fields)) (j : Json) : P j := by
  refine @Json.rec P (fun items => ∀ j ∈ items, P j) (fun fields => ∀ f ∈ fields, P f.2)
    (fun f => P f.2) null number text array object ?_ ?_ ?_ ?_ ?_ j
  · simp
  · intro item rest own others j present
    cases present with
    | head => exact own
    | tail _ present => exact others j present
  · simp
  · intro field rest own others f present
    cases present with
    | head => exact own
    | tail _ present => exact others f present
  · exact fun _ _ own => own

theorem itemTokens_map (items : List Json) : itemTokens items = items.map tokens := by
  induction items with
  | nil => rfl
  | cons item rest ih => rw [itemTokens, ih, List.map_cons]

def ofField (field : String × Json) : List Token := .text field.1 :: .colon :: tokens field.2

theorem fieldTokens_map (fields : List (String × Json)) :
    fieldTokens fields = fields.map ofField := by
  induction fields with
  | nil => rfl
  | cons field rest ih => rw [fieldTokens, ih, List.map_cons, ofField]

theorem renderItems_map (depth : Nat) (items : List Json) :
    renderItems depth items = items.map (render depth) := by
  induction items with
  | nil => rfl
  | cons item rest ih => rw [renderItems, ih, List.map_cons]

theorem renderFields_map (depth : Nat) (fields : List (String × Json)) :
    renderFields depth fields =
      fields.map fun f => quote f.1 ++ ':' :: ' ' :: render depth f.2 := by
  induction fields with
  | nil => rfl
  | cons field rest ih => rw [renderFields, ih, List.map_cons]

def isGap (c : Char) : Bool := c = ' ' || c = '\t' || c = '\n' || c = '\r'

def sign? : Char → Option Token
  | '[' => some .openArray
  | ']' => some .closeArray
  | '\x7b' => some .openObject
  | '\x7d' => some .closeObject
  | ',' => some .comma
  | ':' => some .colon
  | _ => none

def named? : Char → Option Char
  | '"' => some '"'
  | '\\' => some '\\'
  | '/' => some '/'
  | 'b' => some (Char.ofNat 0x08)
  | 'f' => some (Char.ofNat 0x0c)
  | 'n' => some '\n'
  | 'r' => some '\r'
  | 't' => some '\t'
  | _ => none

def hexValue? (c : Char) : Option Nat :=
  if '0'.toNat ≤ c.toNat ∧ c.toNat ≤ '9'.toNat then some (c.toNat - '0'.toNat)
  else if 'a'.toNat ≤ c.toNat ∧ c.toNat ≤ 'f'.toNat then some (c.toNat - 'a'.toNat + 10)
  else if 'A'.toNat ≤ c.toNat ∧ c.toNat ≤ 'F'.toNat then some (c.toNat - 'A'.toNat + 10)
  else none

def unit? (code : List Char) : Option Nat :=
  code.foldlM (fun n c => (hexValue? c).map (16 * n + ·)) 0

def isHigh (n : Nat) : Bool := 0xd800 ≤ n ∧ n < 0xdc00
def isLow (n : Nat) : Bool := 0xdc00 ≤ n ∧ n < 0xe000

def paired (high low : Nat) : Char :=
  Char.ofNat (0x10000 + (high - 0xd800) * 0x400 + (low - 0xdc00))

-- A character stands for itself or is escaped: by a letter, by its code, or by the codes of
-- the two halves that it has in UTF-16.
inductive Symbol : Char → List Char → Prop where
  | bare (least : 0x20 ≤ c.toNat) (quote : c ≠ '"') (backslash : c ≠ '\\') : Symbol c [c]
  | named (known : named? letter = some c) : Symbol c ['\\', letter]
  | code (four : code.length = 4) (number : unit? code = some n) (whole : ¬isHigh n ∧ ¬isLow n) :
      Symbol (Char.ofNat n) ('\\' :: 'u' :: code)
  | pair (four : first.length = 4) (high : unit? first = some h) (isHigh : isHigh h)
      (four' : second.length = 4) (low : unit? second = some l) (isLow : isLow l) :
      Symbol (paired h l) ('\\' :: 'u' :: first ++ '\\' :: 'u' :: second)

inductive Token.Spelled : Token → List Char → Prop where
  | sign (known : sign? c = some t) : Spelled t [c]
  | null : Spelled .null ['n', 'u', 'l', 'l']
  | number (digits : ∀ c ∈ word, c.isDigit) (filled : word ≠ [])
      (least : word.head? = some '0' → word = ['0']) :
      Spelled (.number (Nat.ofDigitChars 10 word 0)) word
  | text {s : String} (symbols : List.Forall₂ Symbol s.toList parts) :
      Spelled (.text s) ('"' :: parts.flatten ++ ['"'])

def Ends (chars : List Char) : Prop := ∀ c, chars.head? = some c → ¬c.isDigit

-- Tokens stand one after the other, with gaps where one likes; digits in a row are one number.
inductive Spells : List Token → List Char → Prop where
  | nothing : Spells [] []
  | gap (blank : isGap c) (rest : Spells ts chars) : Spells ts (c :: chars)
  | token (own : Token.Spelled t word) (apart : ∀ n, t = .number n → Ends chars)
      (rest : Spells ts chars) : Spells (t :: ts) (word ++ chars)

def Spelled (j : Json) (chars : List Char) : Prop := Spells (tokens j) chars

variable {chars chars' : List Char} {ts ts' : List Token}

theorem ends_append (ends : Ends chars) (ends' : Ends chars') : Ends (chars ++ chars') := by
  intro c first
  cases chars with
  | nil => exact ends' c first
  | cons d rest => exact ends c first

theorem Spells.append (first : Spells ts chars) (second : Spells ts' chars')
    (ends : Ends chars') : Spells (ts ++ ts') (chars ++ chars') := by
  induction first with
  | nothing => exact second
  | gap blank _ ih => exact .gap blank ih
  | token own apart _ ih =>
    rw [List.append_assoc]
    exact .token own (fun n number => ends_append (apart n number) ends) ih

theorem Spells.single {t : Token} {word : List Char} (own : t.Spelled word) : Spells [t] word := by
  have whole : Spells [t] (word ++ []) := .token own (fun _ _ _ number => nomatch number) .nothing
  rwa [List.append_nil] at whole

theorem Spells.sign (known : sign? c = some t) (rest : Spells ts chars) :
    Spells (t :: ts) (c :: chars) := by
  refine .token (.sign known) ?_ rest
  rintro n rfl
  unfold sign? at known
  split at known <;> cases known

theorem gaps (depth : Nat) (rest : Spells ts chars) : Spells ts (newline depth ++ chars) := by
  have blanks : ∀ n, Spells ts (List.replicate n ' ' ++ chars) := by
    intro n
    induction n with
    | zero => exact rest
    | succ n ih => exact .gap (by decide) ih
  exact .gap (by decide) (blanks _)

theorem ends_cons {c : Char} (sign : ¬c.isDigit) : Ends (c :: chars) := by
  intro d first
  cases first
  exact sign

theorem joined_spelled (depth : Nat) {own : List (List Token)} {words : List (List Char)}
    (spelled : List.Forall₂ Spells own words) :
    Spells ([Token.comma].intercalate own) ((',' :: newline depth).intercalate words) := by
  induction spelled with
  | nil => exact .nothing
  | @cons ts chars rest rest' first others ih =>
    cases others with
    | nil => simpa using first
    | cons second others =>
      rw [List.intercalate_cons_cons, List.intercalate_cons_cons, List.append_assoc,
        List.append_assoc]
      exact first.append (.sign rfl (gaps depth ih)) (ends_cons (by decide))

theorem enclose_spelled {opening closing : Char} {first last : Token} (depth : Nat)
    (opens : sign? opening = some first) (closes : sign? closing = some last)
    {own : List (List Token)} {words : List (List Char)} (spelled : List.Forall₂ Spells own words) :
    Spells (first :: [Token.comma].intercalate own ++ [last])
      (enclose opening closing depth words) := by
  cases spelled with
  | nil => exact .sign opens (.sign closes .nothing)
  | @cons ts chars rest rest' one others =>
    have joined := joined_spelled (depth + 1) (.cons one others)
    rw [enclose, if_neg (by simp), List.append_assoc, List.append_assoc]
    refine .sign opens (gaps _ ?_)
    exact joined.append (gaps _ (.sign closes .nothing)) (ends_cons (by decide))

theorem hex_digit : ∀ n < 16, hexValue? (hexDigit n) = some n := by decide

theorem escape_spelled (c : Char) : Symbol c (escape c) := by
  unfold escape
  split_ifs with quote backslash back tab line form turn control
  · subst quote
    exact .named rfl
  · subst backslash
    exact .named rfl
  · subst back
    exact .named rfl
  · subst tab
    exact .named rfl
  · subst line
    exact .named rfl
  · subst form
    exact .named rfl
  · subst turn
    exact .named rfl
  · have number : unit? ['0', '0', hexDigit (c.toNat / 16), hexDigit (c.toNat % 16)] =
        some c.toNat := by
      have zero : hexValue? '0' = some 0 := rfl
      have first := hex_digit (c.toNat / 16) (by omega)
      have second := hex_digit (c.toNat % 16) (by omega)
      simp only [unit?, List.foldlM_cons, List.foldlM_nil, zero, first, second, Option.map_some,
        Option.bind_eq_bind, Option.bind_some, Option.pure_def, Option.some.injEq]
      omega
    have whole : ¬isHigh c.toNat ∧ ¬isLow c.toNat := by
      simp only [isHigh, isLow, decide_eq_true_eq]
      omega
    have own := Symbol.code rfl number whole
    rwa [Char.ofNat_toNat] at own
  · exact .bare (by omega) quote backslash

theorem first_digit (n : Nat) (positive : n ≠ 0) : (Nat.toDigits 10 n).head? ≠ some '0' := by
  -- The first digit of a large number is that of its tenth.
  induction n using Nat.strongRecOn with
  | _ n ih =>
    rcases Nat.lt_or_ge n 10 with small | large
    · have all : ∀ n < 10, n ≠ 0 → [n.digitChar].head? ≠ some '0' := by decide
      rw [Nat.toDigits_of_lt_base small]
      exact all n small positive
    · rw [Nat.toDigits_of_base_le (by decide) large, List.head?_append]
      have first := ih (n / 10) (by omega) (by omega)
      cases digits : Nat.toDigits 10 (n / 10) with
      | nil => exact absurd digits Nat.toDigits_ne_nil
      | cons d rest => simpa [digits] using first

theorem digits_spelled (n : Nat) : (Token.number n).Spelled (digits n) := by
  have value : Nat.ofDigitChars 10 (digits n) 0 = n :=
    Nat.ofDigitChars_toDigits (by decide) (by decide)
  have own : (Token.number (Nat.ofDigitChars 10 (digits n) 0)).Spelled (digits n) := by
    refine .number (fun c => Nat.isDigit_of_mem_toDigits (by decide) (by decide))
      Nat.toDigits_ne_nil ?_
    intro zero
    by_cases least : n = 0
    · rw [least]
      rfl
    · exact absurd zero (first_digit n least)
  rwa [value] at own

theorem quote_spelled (s : String) : (Token.text s).Spelled (quote s) := by
  rw [quote, List.flatMap_def]
  refine .text ?_
  rw [List.forall₂_map_right_iff, List.forall₂_same]
  exact fun c _ => escape_spelled c

theorem render_spelled (j : Json) (depth : Nat) : j.Spelled (render depth j) := by
  induction j using induct generalizing depth with
  | null => exact .single .null
  | number n => exact .single (digits_spelled n)
  | text s => exact .single (quote_spelled s)
  | array items inner =>
    rw [Spelled, tokens, render, itemTokens_map, renderItems_map]
    refine enclose_spelled depth rfl rfl ?_
    rw [List.forall₂_map_left_iff, List.forall₂_map_right_iff, List.forall₂_same]
    exact fun item present => inner item present (depth + 1)
  | object fields inner =>
    rw [Spelled, tokens, render, fieldTokens_map, renderFields_map]
    refine enclose_spelled depth rfl rfl ?_
    rw [List.forall₂_map_left_iff, List.forall₂_map_right_iff, List.forall₂_same]
    intro field present
    have value := inner field present (depth + 1)
    exact .token (quote_spelled field.1) (fun _ number => nomatch number)
      (.sign rfl (.gap (by decide) value))

end ChapterCheck.Json
