namespace ChapterCheck

-- The names on the way from the top, the own one first; their number is compared before any name.
structure Place (α : Type) where
  depth : Nat := 0
  names : List α := []
  deriving DecidableEq, BEq, ReflBEq, LawfulBEq, Repr

namespace Place

def top : Place α := {}

def below (p : Place α) (name : α) : Place α := ⟨p.depth + 1, name :: p.names⟩

def above (p : Place α) : Place α := ⟨p.depth - 1, p.names.tail⟩

def ofNames (names : List α) : Place α := names.foldl below top

end Place
end ChapterCheck
