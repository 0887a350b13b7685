namespace ChapterCheck

inductive Json where
  | null
  | number (n : Nat)
  | text (s : String)
  | array (items : List Json)
  | object (fields : List (String × Json))

namespace Json

def hexDigit (n : Nat) : Char := Nat.digitChar n

def escape (c : Char) : List Char :=
  if c = '"' then ['\\', '"']
  else if c = '\\' then ['\\', '\\']
  else if c = Char.ofNat 0x08 then ['\\', 'b']
  else if c = '\t' then ['\\', 't']
  else if c = '\n' then ['\\', 'n']
  else if c = Char.ofNat 0x0c then ['\\', 'f']
  else if c = '\r' then ['\\', 'r']
  else if c.toNat < 0x20 then
    ['\\', 'u', '0', '0', hexDigit (c.toNat / 16), hexDigit (c.toNat % 16)]
  else [c]

def quote (s : String) : List Char := '"' :: s.toList.flatMap escape ++ ['"']

def digits (n : Nat) : List Char := Nat.toDigits 10 n

def newline (depth : Nat) : List Char := '\n' :: List.replicate (2 * depth) ' '

def enclose (opening closing : Char) (depth : Nat) (items : List (List Char)) : List Char :=
  if items.isEmpty then [opening, closing]
  else
    opening :: newline (depth + 1) ++ (',' :: newline (depth + 1)).intercalate items ++
      newline depth ++ [closing]

mutual

def render (depth : Nat) : Json → List Char
  | .null => ['n', 'u', 'l', 'l']
  | .number n => digits n
  | .text s => quote s
  | .array items => enclose '[' ']' depth (renderItems (depth + 1) items)
  | .object fields => enclose '\x7b' '\x7d' depth (renderFields (depth + 1) fields)

def renderItems (depth : Nat) : List Json → List (List Char)
  | [] => []
  | item :: rest => render depth item :: renderItems depth rest

def renderFields (depth : Nat) : List (String × Json) → List (List Char)
  | [] => []
  | (name, value) :: rest =>
    (quote name ++ ':' :: ' ' :: render depth value) :: renderFields depth rest

end

def pretty (j : Json) : String := String.ofList (render 0 j)

end Json
end ChapterCheck
