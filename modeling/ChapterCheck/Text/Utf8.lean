namespace ChapterCheck.Text

structure Unfinished where
  missing : Nat
  least : UInt8
  greatest : UInt8
  bits : Nat
  deriving DecidableEq

inductive Lead where
  | ascii (c : Char)
  | opens (u : Unfinished)
  | invalid
  deriving DecidableEq

-- The narrowed ranges keep out overlong forms, surrogates and values above U+10FFFF.
def lead (b : UInt8) : Lead :=
  if b < 0x80 then .ascii (Char.ofNat b.toNat)
  else if b < 0xc2 then .invalid
  else if b < 0xe0 then .opens ⟨1, 0x80, 0xbf, b.toNat - 0xc0⟩
  else if b < 0xf0 then
    .opens ⟨2, if b = 0xe0 then 0xa0 else 0x80, if b = 0xed then 0x9f else 0xbf, b.toNat - 0xe0⟩
  else if b < 0xf5 then
    .opens ⟨3, if b = 0xf0 then 0x90 else 0x80, if b = 0xf4 then 0x8f else 0xbf, b.toNat - 0xf0⟩
  else .invalid

-- A damaged stretch is as long as it could still have become a character: the byte that breaks it
-- is read again as a lead byte. Pieces are collected reversed.
def piecesFrom (done : List (Option Char)) : Option Unfinished → List UInt8 → List (Option Char)
  | none, [] => done.reverse
  | some _, [] => (none :: done).reverse
  | none, b :: rest =>
    match lead b with
    | .ascii c => piecesFrom (some c :: done) none rest
    | .opens u => piecesFrom done (some u) rest
    | .invalid => piecesFrom (none :: done) none rest
  | some u, b :: rest =>
    if u.least ≤ b ∧ b ≤ u.greatest then
      let bits := u.bits * 64 + (b.toNat - 0x80)
      if u.missing ≤ 1 then piecesFrom (some (Char.ofNat bits) :: done) none rest
      else piecesFrom done (some ⟨u.missing - 1, 0x80, 0xbf, bits⟩) rest
    else
      match lead b with
      | .ascii c => piecesFrom (some c :: none :: done) none rest
      | .opens v => piecesFrom (none :: done) (some v) rest
      | .invalid => piecesFrom (none :: none :: done) none rest

def pieces (bytes : List UInt8) : List (Option Char) := piecesFrom [] none bytes

def replacement : Char := Char.ofNat 0xfffd

def decodeLossy (bytes : List UInt8) : List Char :=
  (pieces bytes).map (·.getD replacement)

def decode? (bytes : List UInt8) : Option (List Char) :=
  let found := pieces bytes
  if found.all Option.isSome then some (found.filterMap id) else none

def encode (s : List Char) : List UInt8 := s.flatMap String.utf8EncodeChar

end ChapterCheck.Text
