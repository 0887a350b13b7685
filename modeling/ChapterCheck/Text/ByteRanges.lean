namespace ChapterCheck.Text

abbrev ByteRow := List (Nat × Nat)

-- By length: first and last code point, what lead bytes add to, and how many bytes follow.
def lengths : List (Nat × Nat × Nat × Nat) :=
  [(0, 0x7f, 0, 0), (0x80, 0x7ff, 0xc0, 1), (0x800, 0xd7ff, 0xe0, 2), (0xe000, 0xffff, 0xe0, 2),
   (0x10000, 0x10ffff, 0xf0, 3)]

-- What is left of the first and of the last lead stands apart; between them every byte may follow.
def rowsOfLead (lead : Nat) : Nat → Nat → Nat → List ByteRow
  | 0, first, last => [[(lead + first, lead + last)]]
  | following + 1, first, last =>
    let unit := 64 ^ (following + 1)
    let under (top first last : Nat) : List ByteRow :=
      (rowsOfLead 0x80 following first last).map ((lead + top, lead + top) :: ·)
    let (low, high) := (first / unit, last / unit)
    if low = high then under low (first % unit) (last % unit)
    else
      let fromFirst := if first % unit = 0 then [] else under low (first % unit) (unit - 1)
      let toLast := if last % unit = unit - 1 then [] else under high 0 (last % unit)
      let least := if first % unit = 0 then low else low + 1
      let most := if last % unit = unit - 1 then high else high - 1
      let whole := (lead + least, lead + most) :: List.replicate (following + 1) (0x80, 0xbf)
      fromFirst ++ (if least ≤ most then [whole] else []) ++ toLast

def byteRows (first last : Nat) : List ByteRow :=
  lengths.flatMap fun (least, most, lead, following) =>
    if max first least ≤ min last most then
      rowsOfLead lead following (max first least) (min last most)
    else []

end ChapterCheck.Text
