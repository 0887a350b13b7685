import ChapterCheck.Pattern.Language
import ChapterCheck.Pattern.Source

namespace ChapterCheck.Pattern

def controls : List (Char × Char) :=
  [('t', '\t'), ('n', '\n'), ('r', '\r'), ('a', '\x07'), ('v', '\x0b'), ('f', '\x0c')]

def Names (c : Char) : Prop :=
  c ∈ controls.map Prod.fst ∨ (c.toNat < 0x80 ∧ c.isAlphanum = false ∧ c ≠ '<' ∧ c ≠ '>')

instance : DecidablePred Names := fun c => by unfold Names; infer_instance

inductive Sign where
  | bare (c : Char) (plain : c ≠ '\\' := by decide)
  | named (name : Char) (known : Names name := by decide)
  deriving DecidableEq, Repr

namespace Sign

def text : Sign → List Char
  | .bare c _ => [c]
  | .named name _ => ['\\', name]

def meant : Sign → Char
  | .bare c _ => c
  | .named name _ => (controls.lookup name).getD name

def bare? : Sign → Option Char
  | .bare c _ => some c
  | .named _ _ => none

def operators : List Char := ['(', ')', '[', '\x7b', '*', '+', '?', '|', '^', '$', '.']

def Literal (s : Sign) : Prop := ∀ c ∈ operators, s.bare? ≠ some c

instance (s : Sign) : Decidable s.Literal := List.decidableBAll (fun c => s.bare? ≠ some c) operators

end Sign

inductive Item where
  | one (s : Sign)
  | range (first last : Sign)
  deriving DecidableEq, Repr

namespace Item

def signs : Item → List Sign
  | .one s => [s]
  | .range first last => [first, .bare '-', last]

def Holds (d : Char) : Item → Prop
  | .one s => d = s.meant
  | .range first last => first.meant ≤ d ∧ d ≤ last.meant

-- A sign must not end the class, nest one or double an operator of sets.
def Fits (before : Option Sign) (s : Sign) : Prop :=
  s.bare? ≠ some '[' ∧ s.bare? ≠ some ']' ∧
    ∀ c ∈ ['-', '&', '~'], s.bare? = some c → before.bind Sign.bare? ≠ some c

instance : Decidable (Fits before s) :=
  have := List.decidableBAll
    (fun c => s.bare? = some c → before.bind Sign.bare? ≠ some c) ['-', '&', '~']
  inferInstanceAs (Decidable (_ ∧ _ ∧ ∀ c ∈ ['-', '&', '~'], _))

-- A bare hyphen is a member only where no range can begin or end.
def Follow : Option Sign → List Item → Prop
  | _, [] => True
  | before, .one s :: rest =>
    Fits before s ∧ (s.bare? = some '-' → before = none ∨ rest = []) ∧ Follow (some s) rest
  | before, .range first last :: rest =>
    Fits before first ∧ first.bare? ≠ some '-' ∧ last.bare? ≠ some ']' ∧ last.bare? ≠ some '-' ∧
      first.meant ≤ last.meant ∧ Follow none rest

instance decideFollow : (before : Option Sign) → (items : List Item) → Decidable (Follow before items)
  | _, [] => .isTrue trivial
  | before, .one s :: rest =>
    have := decideFollow (some s) rest
    inferInstanceAs (Decidable (Fits before s ∧ _ ∧ _))
  | before, .range first _ :: rest =>
    have := decideFollow none rest
    inferInstanceAs (Decidable (Fits before first ∧ _ ∧ _ ∧ _ ∧ _ ∧ _))

end Item

inductive Lead where
  | hyphens (n : Nat)
  | bracket
  deriving DecidableEq, Repr

namespace Lead

def signs : Lead → List Sign
  | .hyphens n => List.replicate n (.bare '-')
  | .bracket => [.bare ']']

def Holds (d : Char) : Lead → Prop
  | .hyphens n => 0 < n ∧ d = '-'
  | .bracket => d = ']'

end Lead

structure Members where
  negated : Bool
  lead : Lead
  items : List Item
  filled : lead = .hyphens 0 → items ≠ []
  follow : Item.Follow none items
  apart : ∀ s ∈ (items.flatMap Item.signs).head?,
    (lead ≠ .bracket → s.bare? ≠ some '-') ∧
      (lead = .hyphens 0 → negated = false → s.bare? ≠ some '^')

namespace Members

def signs (m : Members) : List Sign :=
  .bare '[' :: ((if m.negated then [.bare '^'] else []) ++ m.lead.signs ++
    m.items.flatMap Item.signs ++ [.bare ']'])

def Lists (m : Members) (d : Char) : Prop := m.lead.Holds d ∨ ∃ i ∈ m.items, i.Holds d

end Members

structure Numeral where
  digits : List (Fin 10)
  filled : digits ≠ []
  bounded : digits.foldl (fun n d => 10 * n + d.val) 0 < UInt32.size

namespace Numeral

def value (n : Numeral) : Nat := n.digits.foldl (fun n d => 10 * n + d.val) 0

theorem digit_bare : ∀ d : Fin 10, Char.ofNat ('0'.toNat + d.val) ≠ '\\' := by decide

def signs (n : Numeral) : List Sign :=
  n.digits.map fun d => .bare (Char.ofNat ('0'.toNat + d.val)) (digit_bare d)

end Numeral

inductive Count where
  | star
  | plus
  | optional
  | exactly (n : Numeral)
  | atLeast (n : Numeral)
  | between (least most : Numeral) (ordered : least.value ≤ most.value)

namespace Count

def signs : Count → List Sign
  | .star => [.bare '*']
  | .plus => [.bare '+']
  | .optional => [.bare '?']
  | .exactly n => .bare '\x7b' :: (n.signs ++ [.bare '\x7d'])
  | .atLeast n => .bare '\x7b' :: (n.signs ++ [.bare ',', .bare '\x7d'])
  | .between least most _ =>
    .bare '\x7b' :: (least.signs ++ .bare ',' :: (most.signs ++ [.bare '\x7d']))

def Admits (n : Nat) : Count → Prop
  | .star => True
  | .plus => 1 ≤ n
  | .optional => n ≤ 1
  | .exactly k => n = k.value
  | .atLeast k => k.value ≤ n
  | .between least most _ => least.value ≤ n ∧ n ≤ most.value

end Count

-- Only a piece can be repeated; pieces stand in rows, and rows are the sides of a choice. A
-- question mark right behind a greedy repetition makes it lazy and repeats nothing.
inductive Level where
  | piece (greedy : Bool)
  | row
  | choice
  deriving DecidableEq, Repr

inductive Written : Level → Type where
  | sign (s : Sign) (literal : s.Literal) : Written (.piece false)
  | dot : Written (.piece false)
  | members (m : Members) : Written (.piece false)
  | start : Written (.piece false)
  | finish : Written (.piece false)
  | group (captures : Bool) (body : Written .choice) : Written (.piece false)
  | times (body : Written (.piece before)) (count : Count) (greedy : Bool)
      (apart : before = true → count ≠ .optional) : Written (.piece greedy)
  | nothing : Written .row
  | beside (first : Written (.piece greedy)) (rest : Written .row) : Written .row
  | only (row : Written .row) : Written .choice
  | or (row : Written .row) (rest : Written .choice) : Written .choice

namespace Written

def signs : Written l → List Sign
  | .sign s _ => [s]
  | .dot => [.bare '.']
  | .members m => m.signs
  | .start => [.bare '^']
  | .finish => [.bare '$']
  | .group captures body =>
    .bare '(' :: ((if captures then [] else [.bare '?', .bare ':']) ++ body.signs ++ [.bare ')'])
  | .times body count greedy _ => body.signs ++ count.signs ++ if greedy then [] else [.bare '?']
  | .nothing => []
  | .beside first rest => first.signs ++ rest.signs
  | .only row => row.signs
  | .or row rest => row.signs ++ .bare '|' :: rest.signs

end Written

def Flags.Alike (flags : Flags) (c d : Char) : Prop :=
  c = d ∨ (flags.anyCase = true ∧ Text.fold c = Text.fold d)

def Members.Takes (flags : Flags) (m : Members) (c : Char) : Prop :=
  (∃ d, m.Lists d ∧ flags.Alike c d) ↔ m.negated = false

-- What is written greedy or lazy, in a group or not, describes the same stretches.
def Written.Describes (flags : Flags) : Written l → List Char → List Char → List Char → Prop
  | .sign s _, _, stretch, _ => ∃ c, stretch = [c] ∧ flags.Alike c s.meant
  | .dot, _, stretch, _ => ∃ c, stretch = [c] ∧ (flags.dotTakesAll = true ∨ c ≠ '\n')
  | .members m, _, stretch, _ => ∃ c, stretch = [c] ∧ m.Takes flags c
  | .start, before, stretch, _ =>
    stretch = [] ∧ (before = [] ∨ (flags.eachLine = true ∧ before.getLast? = some '\n'))
  | .finish, _, stretch, after =>
    stretch = [] ∧ (after = [] ∨ (flags.eachLine = true ∧ after.head? = some '\n'))
  | .group _ body, before, stretch, after => body.Describes flags before stretch after
  | .times body count _ _, before, stretch, after =>
    ∃ n, count.Admits n ∧ Expr.Rounds (body.Describes flags) n before stretch after
  | .nothing, _, stretch, _ => stretch = []
  | .beside first rest, before, stretch, after =>
    ∃ head tail, stretch = head ++ tail ∧ first.Describes flags before head (tail ++ after) ∧
      rest.Describes flags (before ++ head) tail after
  | .only row, before, stretch, after => row.Describes flags before stretch after
  | .or row rest, before, stretch, after =>
    row.Describes flags before stretch after ∨ rest.Describes flags before stretch after

inductive Flag where
  | anyCase
  | eachLine
  | dotTakesAll
  deriving DecidableEq, Repr

def Flag.sign : Flag → Sign
  | .anyCase => .bare 'i'
  | .eachLine => .bare 'm'
  | .dotTakesAll => .bare 's'

structure Setting where
  letters : List Flag
  filled : letters ≠ []
  once : letters.Nodup

def Setting.signs (s : Setting) : List Sign :=
  .bare '(' :: .bare '?' :: (s.letters.map Flag.sign ++ [.bare ')'])

structure Source where
  settings : List Setting
  body : Written .choice

namespace Source

def signs (s : Source) : List Sign := s.settings.flatMap Setting.signs ++ s.body.signs

def text (s : Source) : String := String.ofList (s.signs.flatMap Sign.text)

def sets (s : Source) (f : Flag) : Bool := s.settings.any (f ∈ ·.letters)

def flags (s : Source) : Flags := ⟨s.sets .anyCase, s.sets .eachLine, s.sets .dotTakesAll⟩

def Occurs (s : Source) (text : List Char) : Prop :=
  ∃ before stretch after, text = before ++ stretch ++ after ∧
    s.body.Describes s.flags before stretch after

end Source
end ChapterCheck.Pattern
