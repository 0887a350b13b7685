import ChapterCheck.Document
import ChapterCheck.Proofs.LinePatterns

namespace ChapterCheck

namespace Text

variable {s l : List Char} {ls : List (List Char)} {chosen : Nat → Bool}

def withReturns (chosen : Nat → Bool) (first : Nat) (s : List Char) : List Char :=
  (s.zipIdx first).flatMap fun (c, i) => if c = '\n' ∧ chosen i = true then ['\r', '\n'] else [c]

theorem withReturns_within (within : '\n' ∉ l) (first : Nat) : withReturns chosen first l = l := by
  unfold withReturns
  induction l generalizing first with
  | nil => rfl
  | cons c l ih =>
    have other : c ≠ '\n' := fun equal => within (by simp [equal])
    have inside : '\n' ∉ l := fun present => within (List.mem_cons_of_mem _ present)
    rw [List.zipIdx_cons, List.flatMap_cons, ih inside]
    simp only [other, false_and, if_false, List.singleton_append]

theorem withReturns_ended (within : '\n' ∉ l) (first : Nat) :
    withReturns chosen first (l ++ '\n' :: s) =
      l ++ ((if chosen (first + l.length) = true then ['\r', '\n'] else ['\n']) ++
        withReturns chosen (first + l.length + 1) s) := by
  have whole : withReturns chosen first l = l := withReturns_within within first
  unfold withReturns at whole ⊢
  rw [List.zipIdx_append, List.flatMap_append, whole, List.zipIdx_cons, List.flatMap_cons]
  simp only [true_and]

-- A line takes either ending, so it stays what it is unless a CR was its last character.
theorem Lined.withReturns (lined : Lined s ls) (plain : ¬['\r', '\n'] <:+: s) (first : Nat) :
    Lined (withReturns chosen first s) ls := by
  induction lined generalizing first with
  | nothing => exact .nothing
  | unended filled within =>
    rw [withReturns_within within]
    exact .unended filled within
  | @ended l s ls within own rest ih =>
    have later : ¬['\r', '\n'] <:+: s := by
      intro found
      exact plain (found.trans ((List.suffix_cons _ _).trans (List.suffix_append _ _)).isInfix)
    rw [withReturns_ended within]
    split
    · exact .returned within (ih later _)
    · exact .ended within own (ih later _)
  | @returned l s ls within rest ih => exact absurd ⟨l, s, by simp⟩ plain

theorem lines_withReturns (plain : ¬['\r', '\n'] <:+: s) (chosen : Nat → Bool) :
    lines (withReturns chosen 0 s) = lines s :=
  ((lines_lined s).withReturns plain 0).lines

end Text

namespace Document

variable {content content' : String}

theorem defects_same (same : Text.lines content'.toList = Text.lines content.toList) :
    defects Pattern.builtin content' = defects Pattern.builtin content := by
  have block : Frontmatter.check content' = Frontmatter.check content := by
    unfold Frontmatter.check Frontmatter.block?
    rw [same]
  have fences : Fence.scan content' = Fence.scan content := by
    unfold Fence.scan
    rw [same]
  have patterns : Pattern.scan Pattern.builtin content' = Pattern.scan Pattern.builtin content := by
    unfold Pattern.scan
    apply List.filter_congr
    intro p present
    rw [Bool.eq_iff_iff, Pattern.builtin_lines present, Pattern.builtin_lines present, same]
  unfold defects
  rw [block, fences, patterns]

-- It makes no difference to a document which of its lines end with LF and which with CR LF.
theorem check_withReturns (d : Document) (plain : ¬['\r', '\n'] <:+: d.content.toList)
    (chosen : Nat → Bool) :
    let content := String.ofList (Text.withReturns chosen 0 d.content.toList)
    check Pattern.builtin { d with content := content } = check Pattern.builtin d ∧
      Fence.scan content = Fence.scan d.content := by
  intro content
  have same : Text.lines content.toList = Text.lines d.content.toList := by
    rw [String.toList_ofList]
    exact Text.lines_withReturns plain chosen
  have fences : Fence.scan content = Fence.scan d.content := by
    unfold Fence.scan
    rw [same]
  refine ⟨?_, fences⟩
  unfold check
  dsimp only
  rw [defects_same same, fences]

def unfinished : Document :=
  ⟨.ofString "docs/a.mdx", .ofString "a.mdx", "---\ntitle: A\n---\n```sh \nfixme"⟩

theorem unfinished_withReturns : ¬['\r', '\n'] <:+: unfinished.content.toList ∧
    Document.check Pattern.builtin
        { unfinished with content := "---\r\ntitle: A\n---\r\n```sh \nfixme" } =
      Document.check Pattern.builtin unfinished ∧
    Fence.scan "---\r\ntitle: A\n---\r\n```sh \nfixme" = Fence.scan unfinished.content := by
  have plain : ¬['\r', '\n'] <:+: unfinished.content.toList := by decide
  have turned : String.ofList (Text.withReturns (fun i => i = 3 ∨ i = 16) 0
      unfinished.content.toList) = "---\r\ntitle: A\n---\r\n```sh \nfixme" := by decide
  obtain ⟨outcome, fences⟩ := check_withReturns unfinished plain fun i => i = 3 ∨ i = 16
  rw [turned] at outcome fences
  exact ⟨plain, outcome, fences⟩

end Document
end ChapterCheck
