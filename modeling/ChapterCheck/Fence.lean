import ChapterCheck.Text.Blank
import ChapterCheck.Text.Lines

namespace ChapterCheck

structure CodeBlock where
  line : Nat
  info : String
  deriving DecidableEq, Repr

structure FenceScan where
  blocks : List CodeBlock := []
  unclosedAt : Option Nat := none
  deriving DecidableEq, Repr

namespace Fence

-- Nothing nests: a marker inside a block closes it, whatever else its line says.
def marker? : List Char → Option (List Char)
  | '\x60' :: '\x60' :: '\x60' :: rest => some rest
  | _ => none

def scanFrom (closed : List CodeBlock) (pending : Option CodeBlock) (line : Nat) :
    List (List Char) → FenceScan
  | [] => ⟨closed.reverse, pending.map CodeBlock.line⟩
  | l :: rest =>
    match marker? l, pending with
    | none, _ => scanFrom closed pending (line + 1) rest
    | some _, some block => scanFrom (block :: closed) none (line + 1) rest
    | some info, none =>
      scanFrom closed (some ⟨line, String.ofList (Text.trim info)⟩) (line + 1) rest

def scan (content : String) : FenceScan := scanFrom [] none 1 (Text.lines content.toList)

end Fence

def FenceScan.hasUnclosed (s : FenceScan) : Bool := s.unclosedAt.isSome

end ChapterCheck
