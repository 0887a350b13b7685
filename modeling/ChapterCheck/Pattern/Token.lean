import ChapterCheck.Text.Blank

namespace ChapterCheck.Pattern

inductive Fault where
  | danglingEscape
  | unknownEscape (c : Char)
  | unclosedClass
  | nestedClass
  | invertedRange (first last : Char)
  | unreadableCount
  | invertedCount (least most : Nat)
  | unclosedFlags
  | unknownFlag
  | repeatedFlag (flag : Char)
  | noFlag
  | unsupportedGroup
  | nothingToRepeat
  | unclosedGroup
  | unopenedGroup
  | tooDeep (depth : Nat)
  | tooLarge (room : Nat)
  deriving DecidableEq, Repr

-- A source is read in three passes: escapes are resolved into marks, marks are grouped
-- into tokens, and tokens are nested into an expression.
inductive Mark where
  | plain (c : Char)
  | escaped (c : Char)
  deriving DecidableEq, Repr

def Mark.char : Mark → Char
  | .plain c => c
  | .escaped c => c

def escapedChar? (c : Char) : Option Char :=
  if c = 't' then some '\t'
  else if c = 'n' then some '\n'
  else if c = 'r' then some '\r'
  else if c = 'a' then some (Char.ofNat 0x07)
  else if c = 'v' then some (Char.ofNat 0x0b)
  else if c = 'f' then some (Char.ofNat 0x0c)
  else if c.toNat < 0x80 && !c.isAlphanum && c != '<' && c != '>' then some c
  else none

def marks : List Char → Except Fault (List Mark)
  | [] => .ok []
  | '\\' :: [] => .error .danglingEscape
  | '\\' :: c :: rest =>
    match escapedChar? c with
    | some meant => (.escaped meant :: ·) <$> marks rest
    | none => .error (.unknownEscape c)
  | c :: rest => (.plain c :: ·) <$> marks rest

abbrev FlagChange := List (Char × Bool)

inductive Token where
  | literal (c : Char)
  | dot
  | members (ranges : List (Nat × Nat)) (negated : Bool)
  | caret
  | dollar
  | bar
  | opening (captures : Bool) (change : FlagChange)
  | setting (change : FlagChange)
  | closing
  | repeated (least : Nat) (more : Option Nat) (lazy : Bool)
  deriving DecidableEq, Repr

-- Doubled `-`, `&` or `~` would combine two sets and a bracket would nest one; neither is in this
-- language.
structure ClassScan where
  ranges : List (Nat × Nat) := []
  first : Option Mark := none
  hyphen : Bool := false

def ClassScan.put (s : ClassScan) (first last : Char) : ClassScan :=
  ⟨s.ranges ++ [(first.toNat, last.toNat)], none, false⟩

def ClassScan.settle (s : ClassScan) : ClassScan :=
  match s.first with
  | none => s
  | some m =>
    let kept := s.put m.char m.char
    if s.hyphen then kept.put '-' '-' else kept

def ClassScan.doubles (s : ClassScan) (m : Mark) : Bool :=
  s.first = some m && [Mark.plain '-', .plain '&', .plain '~'].contains m

def ClassScan.step (s : ClassScan) (m : Mark) : Except Fault ClassScan :=
  match s.first with
  | none => if m = .plain '[' then .error .nestedClass else .ok { s with first := some m }
  | some low =>
    if s.hyphen then
      if m = .plain '-' then .error .nestedClass
      else if low.char ≤ m.char then .ok (s.put low.char m.char)
      else .error (.invertedRange low.char m.char)
    else if s.doubles m || m = .plain '[' then .error .nestedClass
    else if m = .plain '-' then .ok { s with hyphen := true }
    else .ok { s.settle with first := some m }

def classFrom (s : ClassScan) : List Mark → Except Fault (List (Nat × Nat) × List Mark)
  | [] => .error .unclosedClass
  | m :: rest =>
    if m = .plain ']' then .ok (s.settle.ranges, rest)
    else
      match s.step m with
      | .ok next => classFrom next rest
      | .error fault => .error fault

-- Hyphens at the very start are members, and so is a closing bracket there.
def readMembers (ms : List Mark) : Except Fault (List (Nat × Nat) × List Mark) :=
  let hyphens := ms.takeWhile (· = .plain '-')
  let kept := hyphens.map fun m => (m.char.toNat, m.char.toNat)
  match hyphens, ms.drop hyphens.length with
  | [], .plain ']' :: rest => classFrom ((ClassScan.mk [] none false).put ']' ']') rest
  | _, rest => classFrom ⟨kept, none, false⟩ rest

def readClass : List Mark → Except Fault (Token × List Mark)
  | .plain '^' :: rest =>
    (readMembers rest).map fun (ranges, after) => (.members ranges true, after)
  | ms => (readMembers ms).map fun (ranges, after) => (.members ranges false, after)

def Mark.isBlank : Mark → Bool
  | .plain c => Text.isBlank c
  | .escaped _ => false

def Mark.digit? : Mark → Option Nat
  | .plain c => if '0' ≤ c ∧ c ≤ '9' then some (c.toNat - '0'.toNat) else none
  | .escaped _ => none

def readNumber (ms : List Mark) : Option Nat × List Mark :=
  let ms := ms.dropWhile Mark.isBlank
  let digits := ms.takeWhile (·.digit?.isSome)
  let value := digits.foldl (fun n m => 10 * n + m.digit?.getD 0) 0
  (if digits.isEmpty || UInt32.size ≤ value then none else some value,
    (ms.drop digits.length).dropWhile Mark.isBlank)

-- The second bound of a count is its excess over the first.
def readCount (ms : List Mark) : Except Fault ((Nat × Option Nat) × List Mark) :=
  match readNumber ms with
  | (some n, .plain '\x7d' :: rest) => .ok ((n, some 0), rest)
  | (some n, .plain ',' :: .plain '\x7d' :: rest) => .ok ((n, none), rest)
  | (some n, .plain ',' :: rest) =>
    match readNumber rest with
    | (some m, .plain '\x7d' :: after) =>
      if n ≤ m then .ok ((n, some (m - n)), after) else .error (.invertedCount n m)
    | _ => .error .unreadableCount
  | _ => .error .unreadableCount

def readLazy : List Mark → Bool × List Mark
  | .plain '?' :: rest => (true, rest)
  | ms => (false, ms)

-- `:` opens a group under the flags, `)` puts them in force. Each is named once, and at most one
-- hyphen comes before those turned off.
def readFlags (change : FlagChange) (on : Bool) : List Mark → Except Fault (Token × List Mark)
  | [] => .error .unclosedFlags
  | .plain '-' :: rest =>
    if on then
      match rest with
      | .plain ':' :: _ => .error .noFlag
      | .plain ')' :: _ => .error .noFlag
      | _ => readFlags change false rest
    else .error (.repeatedFlag '-')
  | .plain ':' :: rest => .ok (.opening false change, rest)
  | .plain ')' :: rest => if change.isEmpty then .error .noFlag else .ok (.setting change, rest)
  | .plain c :: rest =>
    if c = 'i' || c = 'm' || c = 's' then
      if (change.map Prod.fst).contains c then .error (.repeatedFlag c)
      else readFlags (change ++ [(c, on)]) on rest
    else .error .unknownFlag
  | .escaped _ :: _ => .error .unknownFlag

def readOpening : List Mark → Except Fault (Token × List Mark)
  | .plain '?' :: .plain c :: rest =>
    if c = '=' || c = '!' || c = '<' || c = 'P' then .error .unsupportedGroup
    else readFlags [] true (.plain c :: rest)
  | .plain '?' :: rest => readFlags [] true rest
  | ms => .ok (.opening true [], ms)

def readToken (c : Char) (rest : List Mark) : Except Fault (Token × List Mark) :=
  let repeated (least : Nat) (more : Option Nat) (after : List Mark) : Token × List Mark :=
    let (lazy, after) := readLazy after
    (.repeated least more lazy, after)
  if c = '(' then readOpening rest
  else if c = '[' then readClass rest
  else if c = '\x7b' then
    (readCount rest).map fun ((least, more), after) => repeated least more after
  else if c = '*' then .ok (repeated 0 none rest)
  else if c = '+' then .ok (repeated 1 none rest)
  else if c = '?' then .ok (repeated 0 (some 1) rest)
  else if c = ')' then .ok (.closing, rest)
  else if c = '|' then .ok (.bar, rest)
  else if c = '^' then .ok (.caret, rest)
  else if c = '$' then .ok (.dollar, rest)
  else if c = '.' then .ok (.dot, rest)
  else .ok (.literal c, rest)

-- Each token takes at least one mark, so as many tokens as marks are enough.
def tokensWithin : Nat → List Mark → Except Fault (List Token)
  | 0, _ => .ok []
  | _ + 1, [] => .ok []
  | n + 1, .escaped c :: rest => (.literal c :: ·) <$> tokensWithin n rest
  | n + 1, .plain c :: rest =>
    match readToken c rest with
    | .ok (token, after) => (token :: ·) <$> tokensWithin n after
    | .error fault => .error fault

def tokens (source : List Char) : Except Fault (List Token) :=
  match marks source with
  | .ok ms => tokensWithin ms.length ms
  | .error fault => .error fault

end ChapterCheck.Pattern
