namespace ChapterCheck.CommandLine

-- Equal characters match when they stand closer than half the longer word, each with the first
-- free one in reach.
def reach (a b : List Char) : Nat := max a.length b.length / 2 - 1

def markFirst (c : Char) (least last : Nat) (j : Nat) :
    List (Char × Bool) → Option (List (Char × Bool))
  | [] => none
  | (d, taken) :: rest =>
    if last < j then none
    else if least ≤ j ∧ c = d ∧ taken = false then some ((d, true) :: rest)
    else (markFirst c least last (j + 1) rest).map ((d, taken) :: ·)

def matching (reach : Nat) (i : Nat) (b : List (Char × Bool)) :
    List Char → List Char × List Char
  | [] => ([], (b.filter Prod.snd).map Prod.fst)
  | c :: rest =>
    match markFirst c (i - reach) (i + reach) 0 b with
    | some b =>
      let (inFirst, inSecond) := matching reach (i + 1) b rest
      (c :: inFirst, inSecond)
    | none => matching reach (i + 1) b rest

def likeness (first second : String) : Float :=
  let a := first.toList
  let b := second.toList
  let (inFirst, inSecond) := matching (reach a b) 0 (b.map fun c => (c, false)) a
  let m := inFirst.length
  let moved := ((inFirst.zip inSecond).countP fun (c, d) => c != d) / 2
  if m = 0 then 0
  else
    (m.toFloat / a.length.toFloat + m.toFloat / b.length.toFloat +
      (m - moved).toFloat / m.toFloat) / 3

-- Of equally like words the last is taken.
def mostLike? (word : String) (known : List String) : Option String :=
  (known.foldl (fun best k =>
    let score := likeness word k
    if score > 0.7 then
      match best with
      | some (top, _) => if score >= top then some (score, k) else best
      | none => some (score, k)
    else best) (none : Option (Float × String))).map Prod.snd

end ChapterCheck.CommandLine
