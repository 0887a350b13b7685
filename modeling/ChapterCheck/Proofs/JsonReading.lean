import ChapterCheck.Proofs.JsonText

namespace ChapterCheck.Json

def runs (step : σ → α → Option σ) (s : σ) (xs : List α) : Option σ := xs.foldlM step s

theorem runs_append (step : σ → α → Option σ) (s : σ) (xs ys : List α) :
    runs step s (xs ++ ys) = (runs step s xs).bind fun s => runs step s ys :=
  List.foldlM_append

theorem runs_cons (step : σ → α → Option σ) (s : σ) (x : α) (xs : List α) :
    runs step s (x :: xs) = (step s x).bind fun s => runs step s xs :=
  List.foldlM_cons

-- A number may go on with every digit, so it is taken for complete only at what follows it. What
-- is collected is reversed, characters and tokens alike.
inductive Stage where
  | between
  | word (left : List Char)
  | number (n : Nat)
  | text (read : List Char)
  | escape (read : List Char)
  | code (read : List Char) (high : Option Nat) (digits : List Char)
  | half (read : List Char) (high : Nat)
  | halfEscape (read : List Char) (high : Nat)

structure Lexer where
  found : List Token := []
  stage : Stage := .between

namespace Lexer

def digit (c : Char) : Nat := c.toNat - '0'.toNat

def begin (found : List Token) (c : Char) : Option Lexer :=
  match sign? c with
  | some t => some ⟨t :: found, .between⟩
  | none =>
    if isGap c then some ⟨found, .between⟩
    else if c = 'n' then some ⟨found, .word ['u', 'l', 'l']⟩
    else if c = '"' then some ⟨found, .text []⟩
    else if c.isDigit then some ⟨found, .number (digit c)⟩
    else none

def coded (read : List Char) : Option Nat → Nat → Option Stage
  | none, n =>
    if isHigh n then some (.half read n)
    else if isLow n then none
    else some (.text (Char.ofNat n :: read))
  | some high, n =>
    if isLow n then some (.text (paired high n :: read)) else none

def step : Lexer → Char → Option Lexer
  | ⟨found, .between⟩, c => begin found c
  | ⟨_, .word []⟩, _ => none
  | ⟨found, .word (d :: left)⟩, c =>
    if c ≠ d then none
    else if left = [] then some ⟨.null :: found, .between⟩
    else some ⟨found, .word left⟩
  | ⟨found, .number n⟩, c =>
    if c.isDigit then if n = 0 then none else some ⟨found, .number (10 * n + digit c)⟩
    else begin (.number n :: found) c
  | ⟨found, .text read⟩, c =>
    if c = '"' then some ⟨.text (String.ofList read.reverse) :: found, .between⟩
    else if c = '\\' then some ⟨found, .escape read⟩
    else if c.toNat < 0x20 then none
    else some ⟨found, .text (c :: read)⟩
  | ⟨found, .escape read⟩, c =>
    if c = 'u' then some ⟨found, .code read none []⟩
    else (named? c).map fun meant => ⟨found, .text (meant :: read)⟩
  | ⟨found, .code read high digits⟩, c =>
    if digits.length < 3 then some ⟨found, .code read high (digits ++ [c])⟩
    else ((unit? (digits ++ [c])).bind (coded read high)).map fun stage => ⟨found, stage⟩
  | ⟨found, .half read high⟩, c =>
    if c = '\\' then some ⟨found, .halfEscape read high⟩ else none
  | ⟨found, .halfEscape read high⟩, c =>
    if c = 'u' then some ⟨found, .code read (some high) []⟩ else none

def finish : Lexer → Option (List Token)
  | ⟨found, .between⟩ => some found.reverse
  | ⟨found, .number n⟩ => some (.number n :: found).reverse
  | _ => none

end Lexer

def lex (chars : List Char) : Option (List Token) := (runs Lexer.step {} chars).bind Lexer.finish

-- The arrays and objects that are open, the innermost first, each with what it holds, reversed.
inductive Frame where
  | array (items : List Json)
  | object (fields : List (String × Json)) (name : String)

inductive Parser where
  | value (around : List Frame)
  | firstItem (around : List Frame)
  | firstName (around : List Frame)
  | nextName (around : List Frame) (fields : List (String × Json))
  | colon (around : List Frame) (fields : List (String × Json)) (name : String)
  | after (around : List Frame) (j : Json)

namespace Parser

def begin (around : List Frame) : Token → Option Parser
  | .null => some (.after around .null)
  | .number n => some (.after around (.number n))
  | .text s => some (.after around (.text s))
  | .openArray => some (.firstItem around)
  | .openObject => some (.firstName around)
  | _ => none

def step : Parser → Token → Option Parser
  | .value around, t => begin around t
  | .firstItem around, .closeArray => some (.after around (.array []))
  | .firstItem around, t => begin (.array [] :: around) t
  | .firstName around, .closeObject => some (.after around (.object []))
  | .firstName around, .text name => some (.colon around [] name)
  | .nextName around fields, .text name => some (.colon around fields name)
  | .colon around fields name, .colon => some (.value (.object fields name :: around))
  | .after (.array items :: around) j, .comma => some (.value (.array (j :: items) :: around))
  | .after (.array items :: around) j, .closeArray =>
    some (.after around (.array (j :: items).reverse))
  | .after (.object fields name :: around) j, .comma =>
    some (.nextName around ((name, j) :: fields))
  | .after (.object fields name :: around) j, .closeObject =>
    some (.after around (.object ((name, j) :: fields).reverse))
  | _, _ => none

def finish : Parser → Option Json
  | .after [] j => some j
  | _ => none

end Parser

def parse (ts : List Token) : Option Json := (runs Parser.step (.value []) ts).bind Parser.finish

def read? (chars : List Char) : Option Json := (lex chars).bind parse

namespace Lexer

variable {found : List Token} {read : List Char}

theorem run_code {code : List Char} (four : code.length = 4) (number : unit? code = some n)
    (high : Option Nat) :
    runs step ⟨found, .code read high []⟩ code =
      (coded read high n).map fun stage => ⟨found, stage⟩ := by
  match code, four with
  | [a, b, c, d], _ =>
    simp [runs, step, number]

theorem run_symbol (symbol : Symbol c own) :
    runs step ⟨found, .text read⟩ own = some ⟨found, .text (c :: read)⟩ := by
  cases symbol with
  | bare least quote backslash =>
    simp [runs, step, quote, backslash, Nat.not_lt.mpr least]
  | @named letter _ known =>
    have coded : letter ≠ 'u' := by
      rintro rfl
      cases known
    simp [runs, step, known, coded]
  | code four number whole =>
    obtain ⟨high, low⟩ := whole
    have opened : ∀ code, runs step ⟨found, .text read⟩ ('\\' :: 'u' :: code) =
        runs step ⟨found, .code read none []⟩ code := fun _ => rfl
    rw [opened, run_code four number, coded, if_neg high, if_neg low]
    rfl
  | @pair first h second l four high isHigh four' low isLow =>
    have opened : ∀ code, runs step ⟨found, .text read⟩ ('\\' :: 'u' :: code) =
        runs step ⟨found, .code read none []⟩ code := fun _ => rfl
    have again : ∀ code, runs step ⟨found, .half read h⟩ ('\\' :: 'u' :: code) =
        runs step ⟨found, .code read (some h) []⟩ code := fun _ => rfl
    rw [List.cons_append, List.cons_append, opened, runs_append, run_code four high, coded,
      if_pos isHigh, Option.map_some, Option.bind_some, again, run_code four' low, coded,
      if_pos isLow]
    rfl

theorem run_symbols {chars : List Char} {parts : List (List Char)}
    (symbols : List.Forall₂ Symbol chars parts) :
    runs step ⟨found, .text read⟩ parts.flatten = some ⟨found, .text (chars.reverse ++ read)⟩ := by
  induction symbols generalizing read with
  | nil => rfl
  | cons symbol _ ih =>
    rw [List.flatten_cons, runs_append, run_symbol symbol, Option.bind_some, ih, List.reverse_cons,
      List.append_assoc, List.singleton_append]

theorem run_digits {n : Nat} {word : List Char} (digits : ∀ c ∈ word, c.isDigit) (positive : n ≠ 0) :
    runs step ⟨found, .number n⟩ word = some ⟨found, .number (Nat.ofDigitChars 10 word n)⟩ := by
  induction word generalizing n with
  | nil => rfl
  | cons c word ih =>
    rw [runs_cons, step, if_pos (digits c (.head _)), if_neg positive, Option.bind_some,
      ih (fun c present => digits c (.tail _ present)) (by omega)]
    rfl

def atEnd (found : List Token) : Token → Lexer
  | .number n => ⟨found, .number n⟩
  | t => ⟨t :: found, .between⟩

theorem begin_digit {c : Char} (isDigit : c.isDigit) :
    begin found c = some ⟨found, .number (digit c)⟩ := by
  have all : ∀ n < 10, ∀ c, c = Char.ofNat ('0'.toNat + n) →
      sign? c = none ∧ isGap c = false ∧ c ≠ 'n' ∧ c ≠ '"' := by
    rintro n small c rfl
    revert n
    decide
  obtain ⟨least, greatest⟩ := Char.isDigit_iff_toNat.mp isDigit
  have bound : '9'.toNat = '0'.toNat + 9 := rfl
  obtain ⟨sign, gap, word, quote⟩ := all (digit c) (by unfold digit; omega) c (by
    rw [digit, Nat.add_sub_cancel' least, Char.ofNat_toNat])
  simp only [begin, sign, gap, word, quote, isDigit, if_true, if_false, Bool.false_eq_true]

theorem run_token {t : Token} {word : List Char} (spelled : t.Spelled word) :
    runs step ⟨found, .between⟩ word = some (atEnd found t) := by
  cases spelled with
  | @sign c _ known =>
    have own : atEnd found t = ⟨t :: found, .between⟩ := by
      unfold sign? at known
      split at known <;> cases known <;> rfl
    rw [runs_cons, step, begin, known, own]
    rfl
  | null => rfl
  | number digits filled least =>
    cases word with
    | nil => exact absurd rfl filled
    | cons c rest =>
      have value : Nat.ofDigitChars 10 (c :: rest) 0 = Nat.ofDigitChars 10 rest (digit c) := by
        rw [Nat.ofDigitChars, List.foldl_cons, Nat.mul_zero, Nat.zero_add]
        rfl
      rw [runs_cons, step, begin_digit (digits c (.head _)), Option.bind_some, value]
      by_cases zero : c = '0'
      · cases least (zero ▸ rfl)
        rfl
      · refine run_digits (fun c present => digits c (.tail _ present)) ?_
        intro value_zero
        obtain ⟨low, -⟩ := Char.isDigit_iff_toNat.mp (digits c (.head _))
        exact zero (Char.toNat_inj.mp (Nat.le_antisymm (Nat.le_of_sub_eq_zero value_zero) low))
  | @text parts s symbols =>
    have opened : runs step ⟨found, .between⟩ ('"' :: (parts.flatten ++ ['"'])) =
        runs step ⟨found, .text []⟩ (parts.flatten ++ ['"']) := rfl
    have closed : ∀ read, runs step ⟨found, .text read⟩ ['"'] =
        some ⟨.text (String.ofList read.reverse) :: found, .between⟩ := fun _ => rfl
    rw [List.cons_append, opened, runs_append, run_symbols symbols, Option.bind_some, closed,
      List.append_nil, List.reverse_reverse, String.ofList_toList]
    rfl

theorem run_ended (ends : Ends chars) :
    (runs step ⟨found, .number n⟩ chars).bind finish =
      (runs step ⟨.number n :: found, .between⟩ chars).bind finish := by
  cases chars with
  | nil => rfl
  | cons c rest => rw [runs_cons, runs_cons, step, step, if_neg (ends c rfl)]

theorem run_spells (spells : Spells ts chars) (found : List Token) :
    (runs step ⟨found, .between⟩ chars).bind finish = some (found.reverse ++ ts) := by
  induction spells generalizing found with
  | nothing => simp [runs, finish]
  | @gap c ts chars blank rest ih =>
    have sign : sign? c = none := by
      simp only [isGap, Bool.or_eq_true, decide_eq_true_eq] at blank
      rcases blank with ((rfl | rfl) | rfl) | rfl <;> rfl
    rw [runs_cons, step, begin, sign]
    dsimp only
    rw [if_pos blank]
    exact ih found
  | @token t word chars ts own apart rest ih =>
    have later := ih (t :: found)
    rw [List.reverse_cons, List.append_assoc, List.singleton_append] at later
    rw [runs_append, run_token own, Option.bind_some]
    -- Only a number is left open by its last character.
    cases t with
    | number n => rw [atEnd, run_ended (apart n rfl), later]
    | _ => exact later

end Lexer

theorem lex_spells (spells : Spells ts chars) : lex chars = some ts :=
  Lexer.run_spells spells []

-- A separator leads from each part on to the next, so a whole run of parts is taken.
theorem runs_joined {step : σ → α → Option σ} {before : List β → σ} {after : List β → β → σ}
    {spelling : β → List α} (sep last : α) (closed : List β → σ) (x : β) (rest : List β)
    (each : ∀ y ∈ x :: rest, ∀ done xs,
      runs step (before done) (spelling y ++ xs) = runs step (after done y) xs)
    (next : ∀ done y, step (after done y) sep = some (before (y :: done)))
    (ends : ∀ done y, step (after done y) last = some (closed (y :: done))) (done : List β) :
    runs step (before done) ([sep].intercalate ((x :: rest).map spelling) ++ [last]) =
      some (closed ((x :: rest).reverse ++ done)) := by
  have first := each x (.head _) done
  induction rest generalizing x done with
  | nil =>
    rw [List.map_singleton, List.intercalate_singleton, first, runs_cons, ends]
    rfl
  | cons second rest ih =>
    have later := fun y present => each y (.tail x present)
    have others := ih second later (x :: done) (later second (.head _) (x :: done))
    have order : (second :: rest).reverse ++ x :: done = (x :: second :: rest).reverse ++ done := by
      simp
    rw [List.map_cons, List.map_cons, List.intercalate_cons_cons, List.append_assoc,
      List.append_assoc, first, List.singleton_append, runs_cons, next, Option.bind_some,
      ← List.map_cons, others, order]

theorem intercalate_first (sep first : List α) (rest : List (List α)) :
    ∃ tail, sep.intercalate (first :: rest) = first ++ tail := by
  cases rest with
  | nil => exact ⟨[], by simp⟩
  | cons second rest => exact ⟨_, by rw [List.intercalate_cons_cons, List.append_assoc]⟩

namespace Parser

variable {around : List Frame}

def Read (j : Json) : Prop :=
  ∀ around, runs step (.value around) (tokens j) = some (.after around j)

theorem run_value {j : Json} (own : Read j) (around : List Frame) (ts : List Token) :
    runs step (.value around) (tokens j ++ ts) = runs step (.after around j) ts := by
  rw [runs_append, own, Option.bind_some]

theorem run_field {field : String × Json} (own : Read field.2) (done : List (String × Json))
    (ts : List Token) :
    runs step (.nextName around done) (ofField field ++ ts) =
      runs step (.after (.object done field.1 :: around) field.2) ts :=
  run_value own (.object done field.1 :: around) ts

theorem run_firstItem (item : Json) (ts : List Token) :
    runs step (.firstItem around) (tokens item ++ ts) =
      runs step (.value (.array [] :: around)) (tokens item ++ ts) := by
  cases item <;> rfl

theorem run_tokens (j : Json) : Read j := by
  induction j using induct with
  | null => exact fun _ => rfl
  | number n => exact fun _ => rfl
  | text s => exact fun _ => rfl
  | array items inner =>
    intro around
    rw [tokens, itemTokens_map]
    cases items with
    | nil => rfl
    | cons item rest =>
      have each : ∀ j ∈ item :: rest, ∀ done ts,
          runs step (.value (.array done :: around)) (tokens j ++ ts) =
            runs step (.after (.array done :: around) j) ts :=
        fun j present done => run_value (inner j present) (.array done :: around)
      have whole := runs_joined .comma .closeArray (fun done => .after around (.array done.reverse))
        item rest each (fun _ _ => rfl) (fun _ _ => rfl) []
      obtain ⟨tail, split⟩ := intercalate_first [Token.comma] (tokens item) (rest.map tokens)
      rw [List.map_cons, split, List.append_assoc, ← run_firstItem, List.append_nil,
        List.reverse_reverse] at whole
      rw [List.map_cons, split, List.cons_append, List.append_assoc]
      exact whole
  | object fields inner =>
    intro around
    rw [tokens, fieldTokens_map]
    cases fields with
    | nil => rfl
    | cons field rest =>
      have each : ∀ f ∈ field :: rest, ∀ done ts,
          runs step (.nextName around done) (ofField f ++ ts) =
            runs step (.after (.object done f.1 :: around) f.2) ts :=
        fun f present => run_field (inner f present)
      have whole := runs_joined .comma .closeObject
        (fun done => .after around (.object done.reverse)) field rest each
        (fun _ _ => rfl) (fun _ _ => rfl) []
      obtain ⟨tail, split⟩ := intercalate_first [Token.comma] (ofField field) (rest.map ofField)
      rw [List.map_cons, split, List.append_assoc, List.append_nil, List.reverse_reverse] at whole
      rw [List.map_cons, split, List.cons_append, List.append_assoc]
      exact whole

end Parser

theorem parse_tokens (j : Json) : parse (tokens j) = some j := by
  rw [parse, Parser.run_tokens]
  rfl

theorem read_spelled {j : Json} (spelled : j.Spelled chars) : read? chars = some j := by
  rw [read?, lex_spells spelled]
  exact parse_tokens j

theorem spelled_unique {j j' : Json} (spelled : j.Spelled chars) (spelled' : j'.Spelled chars) :
    j = j' :=
  Option.some.inj ((read_spelled spelled).symm.trans (read_spelled spelled'))

end ChapterCheck.Json
