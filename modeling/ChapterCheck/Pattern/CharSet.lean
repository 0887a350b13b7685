import ChapterCheck.Text.CaseFolding

namespace ChapterCheck

structure CharSet where
  ranges : List (Nat × Nat)
  negated : Bool := false
  deriving DecidableEq, Repr

namespace CharSet

def listed (ranges : List (Nat × Nat)) (c : Char) : Bool :=
  ranges.any fun (first, last) => first ≤ c.toNat && c.toNat ≤ last

def contains (s : CharSet) (c : Char) : Bool := listed s.ranges c != s.negated

def point (c : Char) : Nat × Nat := (c.toNat, c.toNat)

def single (c : Char) : CharSet := ⟨[point c], false⟩

-- Folding applies to the members listed, before any negation.
def foldedForms (ranges : List (Nat × Nat)) : List Char :=
  let found := (Text.foldingPairsNear ranges).filter fun (c, folded) =>
    listed ranges c || listed ranges folded
  (found.map Prod.snd).eraseDups

def anyCaseRanges (ranges : List (Nat × Nat)) : List (Nat × Nat) :=
  let forms := foldedForms ranges
  let found := (Text.foldingPairsNear (forms.map point)).filter fun (_, folded) =>
    forms.contains folded
  ranges ++ forms.map point ++ found.map fun (c, _) => point c

def anyCase (s : CharSet) : CharSet := { s with ranges := anyCaseRanges s.ranges }

def insertRange (added : Nat × Nat) : List (Nat × Nat) → List (Nat × Nat)
  | [] => [added]
  | (first, last) :: rest =>
    if added.2 + 1 < first then added :: (first, last) :: rest
    else if last + 1 < added.1 then (first, last) :: insertRange added rest
    else insertRange (min first added.1, max last added.2) rest

def gapsFrom (next : Nat) : List (Nat × Nat) → List (Nat × Nat)
  | [] => if next ≤ 0x10ffff then [(next, 0x10ffff)] else []
  | (first, last) :: rest =>
    if next < first then (next, first - 1) :: gapsFrom (last + 1) rest
    else gapsFrom (last + 1) rest

def intervals (s : CharSet) : List (Nat × Nat) :=
  let merged := s.ranges.foldr insertRange []
  if s.negated then gapsFrom 0 merged else merged

end CharSet
end ChapterCheck
