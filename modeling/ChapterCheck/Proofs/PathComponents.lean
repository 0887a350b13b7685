import ChapterCheck.Path
import Mathlib.Data.List.DropRight

namespace ChapterCheck.Path

variable {b : UInt8} {part rest : List UInt8} {parts : List (List UInt8)}

theorem splitSlash_slash : splitSlash (slash :: rest) = [] :: splitSlash rest := by
  simp [splitSlash]

theorem splitSlash_filled (bytes : List UInt8) : ∃ part parts, splitSlash bytes = part :: parts := by
  cases bytes with
  | nil => exact ⟨[], [], rfl⟩
  | cons b rest =>
    by_cases cut : b = slash
    · exact ⟨[], splitSlash rest, by rw [cut, splitSlash_slash]⟩
    · cases split : splitSlash rest with
      | nil => exact ⟨[b], [], by simp [splitSlash, cut, split]⟩
      | cons part parts => exact ⟨b :: part, parts, by simp [splitSlash, cut, split]⟩

theorem splitSlash_other (other : b ≠ slash) (split : splitSlash rest = part :: parts) :
    splitSlash (b :: rest) = (b :: part) :: parts := by
  simp [splitSlash, other, split]

theorem splitSlash_plain (clear : slash ∉ part) : splitSlash part = [part] := by
  induction part with
  | nil => rfl
  | cons b rest ih =>
    simp only [List.mem_cons, not_or] at clear
    exact splitSlash_other (Ne.symm clear.1) (ih clear.2)

theorem splitSlash_part (clear : slash ∉ part) :
    splitSlash (part ++ slash :: rest) = part :: splitSlash rest := by
  induction part with
  | nil => exact splitSlash_slash
  | cons b part ih =>
    simp only [List.mem_cons, not_or] at clear
    exact splitSlash_other (Ne.symm clear.1) (ih clear.2)

theorem splitSlash_clear (bytes : List UInt8) : ∀ part ∈ splitSlash bytes, slash ∉ part := by
  induction bytes with
  | nil => simp [splitSlash]
  | cons b rest ih =>
    by_cases cut : b = slash
    · rw [cut, splitSlash_slash]
      intro part present
      rcases List.mem_cons.mp present with rfl | later
      · simp
      · exact ih part later
    · obtain ⟨first, parts, split⟩ := splitSlash_filled rest
      rw [splitSlash_other cut split]
      rw [split] at ih
      intro part present
      rcases List.mem_cons.mp present with rfl | later
      · simpa [Ne.symm cut] using ih first List.mem_cons_self
      · exact ih part (List.mem_cons_of_mem _ later)

theorem joinSlash_cons (part : List UInt8) (filled : parts ≠ []) :
    joinSlash (part :: parts) = part ++ slash :: joinSlash parts := by
  cases parts with
  | nil => exact absurd rfl filled
  | cons next rest => simp [joinSlash, List.intercalate]

theorem splitSlash_joinSlash (filled : parts ≠ []) (clear : ∀ part ∈ parts, slash ∉ part) :
    splitSlash (joinSlash parts) = parts := by
  induction parts with
  | nil => exact absurd rfl filled
  | cons part rest ih =>
    have plain := clear part List.mem_cons_self
    by_cases last : rest = []
    · subst last
      simpa [joinSlash, List.intercalate] using splitSlash_plain plain
    · rw [joinSlash_cons part last, splitSlash_part plain,
        ih last fun later present => clear later (List.mem_cons_of_mem _ present)]

def named (parts : List (List UInt8)) : List Component := (parts.filter (!idle ·)).map componentOf

theorem components_named (p : Path) : p.components = p.head?.toList ++ named p.parts := rfl

theorem named_append (parts more : List (List UInt8)) :
    named (parts ++ more) = named parts ++ named more := by
  simp [named]

theorem named_idle (quiet : ∀ part ∈ parts, idle part) : named parts = [] := by
  simpa [named, List.filter_eq_nil_iff] using quiet

theorem named_single (busy : idle part = false) : named [part] = [componentOf part] := by
  simp [named, busy]

theorem named_plain (present : c ∈ named parts) : c ≠ .root ∧ c ≠ .here := by
  simp only [named, List.mem_map] at present
  obtain ⟨part, -, rfl⟩ := present
  unfold componentOf
  split <;> simp

-- Rejoining what was split needs no care for the split of nothing, which is one idle part.
theorem named_splitSlash_joinSlash (clear : ∀ part ∈ parts, slash ∉ part) :
    named (splitSlash (joinSlash parts)) = named parts := by
  by_cases filled : parts = []
  · subst filled
    rfl
  · rw [splitSlash_joinSlash filled clear]

theorem withoutIdleEnd_split (parts : List (List UInt8)) :
    ∃ quiet, parts = withoutIdleEnd parts ++ quiet ∧ ∀ part ∈ quiet, idle part := by
  refine ⟨(parts.reverse.takeWhile idle).reverse, ?_, ?_⟩
  · rw [withoutIdleEnd, ← List.reverse_append, List.takeWhile_append_dropWhile,
      List.reverse_reverse]
  · intro part present
    exact List.mem_takeWhile_imp (List.mem_reverse.mp present)

theorem named_withoutIdleEnd (parts : List (List UInt8)) :
    named (withoutIdleEnd parts) = named parts := by
  obtain ⟨quiet, whole, idles⟩ := withoutIdleEnd_split parts
  conv_rhs => rw [whole, named_append, named_idle idles, List.append_nil]

theorem withoutIdleEnd_busy (filled : withoutIdleEnd parts ≠ []) :
    idle ((withoutIdleEnd parts).getLast filled) = false :=
  Bool.eq_false_iff.mpr (List.rdropWhile_last_not idle parts filled)

theorem withoutIdleEnd_clear (clear : ∀ part ∈ parts, slash ∉ part) :
    ∀ part ∈ withoutIdleEnd parts, slash ∉ part := by
  obtain ⟨quiet, whole, -⟩ := withoutIdleEnd_split parts
  intro part present
  exact clear part (by rw [whole]; exact List.mem_append_left _ present)

theorem named_dropLast (filled : withoutIdleEnd parts ≠ []) :
    named parts ≠ [] ∧ named (withoutIdleEnd parts).dropLast = (named parts).dropLast := by
  have ends := List.dropLast_append_getLast filled
  have whole : named parts = named (withoutIdleEnd parts).dropLast ++
      [componentOf ((withoutIdleEnd parts).getLast filled)] := by
    rw [← named_withoutIdleEnd parts, ← named_single (withoutIdleEnd_busy filled), ← named_append,
      ends]
  rw [whole]
  exact ⟨by simp, by simp⟩

theorem named_none (bare : withoutIdleEnd parts = []) : named parts = [] := by
  rw [← named_withoutIdleEnd, bare]
  rfl

theorem head_slash : (Path.mk (slash :: rest)).head? = some .root := by simp [head?]

theorem head_dot (cut : rest = [] ∨ rest.head? = some slash) :
    (Path.mk (dot :: rest)).head? = some .here := by
  have other : dot ≠ slash := by decide
  simp only [head?, other, if_false, true_and, cut, if_true]

theorem head_busy (busy : idle part = false) (clear : slash ∉ part) :
    (Path.mk (part ++ rest)).head? = none := by
  cases part with
  | nil => simp [idle] at busy
  | cons b more =>
    simp only [List.mem_cons, not_or] at clear
    have other : b ≠ slash := Ne.symm clear.1
    simp only [head?, List.cons_append, other, if_false, ite_eq_right_iff, reduceCtorEq, imp_false,
      not_and, not_or]
    intro equal
    subst equal
    cases more with
    | nil => simp [idle] at busy
    | cons c more =>
      simp only [List.mem_cons, not_or] at clear
      simpa using Ne.symm clear.2.1

theorem components_slash : (Path.mk (slash :: rest)).components = .root :: named (splitSlash rest) := by
  simp [components_named, parts, head_slash]

theorem components_dot (cut : rest = [] ∨ rest.head? = some slash) :
    (Path.mk (dot :: rest)).components = .here :: named (splitSlash rest) := by
  simp [components_named, parts, head_dot cut]

theorem headless (p : Path) (bare : p.head? = none) :
    p.components = named (splitSlash p.bytes) ∧
      (p.bytes ≠ [] → ∃ part more, splitSlash p.bytes = part :: more ∧ idle part = false) := by
  refine ⟨by simp [components_named, parts, bare], ?_⟩
  intro text
  obtain ⟨part, more, split⟩ := splitSlash_filled p.bytes
  refine ⟨part, more, split, ?_⟩
  obtain ⟨bytes⟩ := p
  cases bytes with
  | nil => exact absurd rfl text
  | cons b rest =>
    have other : b ≠ slash := by
      intro equal
      subst equal
      rw [head_slash] at bare
      cases bare
    obtain ⟨first, later, inside⟩ := splitSlash_filled rest
    rw [splitSlash_other other inside] at split
    cases split
    by_contra quiet
    simp only [idle, Bool.or_eq_true, decide_eq_true_eq, List.cons.injEq, reduceCtorEq, false_or,
      Bool.not_eq_false] at quiet
    obtain ⟨rfl, rfl⟩ := quiet
    have cut : rest = [] ∨ rest.head? = some slash := by
      cases rest with
      | nil => exact .inl rfl
      | cons c more =>
        by_cases next : c = slash
        · exact .inr (by simp [next])
        · obtain ⟨part, parts, split⟩ := splitSlash_filled more
          rw [splitSlash_other next split] at inside
          cases inside
    rw [head_dot cut] at bare
    cases bare

theorem components_eq_nil {p : Path} : p.components = [] ↔ p.bytes = [] := by
  constructor
  · intro bare
    by_contra text
    cases head : p.head? with
    | some c => simp [components_named, head] at bare
    | none =>
      obtain ⟨alone, first⟩ := headless p head
      obtain ⟨part, more, split, busy⟩ := first text
      rw [alone, split, ← List.singleton_append, named_append, named_single busy] at bare
      cases bare
  · intro text
    obtain ⟨bytes⟩ := p
    cases text
    rfl

theorem components_ofParts_slash (clear : ∀ part ∈ parts, slash ∉ part) :
    (ofParts [slash] parts).components = .root :: named parts := by
  rw [ofParts, List.singleton_append, components_slash,
    named_splitSlash_joinSlash (withoutIdleEnd_clear clear), named_withoutIdleEnd]

theorem head_withoutIdleEnd (first : (withoutIdleEnd parts).head? = some part) :
    parts.head? = some part := by
  obtain ⟨quiet, whole, -⟩ := withoutIdleEnd_split parts
  rw [whole, List.head?_append, first]
  rfl

theorem components_ofParts_dot (clear : ∀ part ∈ parts, slash ∉ part)
    (opening : ∀ part, parts.head? = some part → part = []) :
    (ofParts [dot] parts).components = .here :: named parts := by
  have cut : joinSlash (withoutIdleEnd parts) = [] ∨
      (joinSlash (withoutIdleEnd parts)).head? = some slash := by
    cases kept : withoutIdleEnd parts with
    | nil => exact .inl rfl
    | cons first later =>
      have blank : first = [] := opening first (head_withoutIdleEnd (by rw [kept]; rfl))
      have more : later ≠ [] := by
        intro equal
        subst equal
        have filled : withoutIdleEnd parts ≠ [] := by simp [kept]
        have busy := withoutIdleEnd_busy filled
        simp [kept, blank, idle] at busy
      exact .inr (by rw [joinSlash_cons first more, blank]; rfl)
  rw [ofParts, List.singleton_append, components_dot cut,
    named_splitSlash_joinSlash (withoutIdleEnd_clear clear), named_withoutIdleEnd]

theorem head_ofParts_nil (clear : ∀ part ∈ parts, slash ∉ part)
    (opening : ∀ part, parts.head? = some part → idle part = false) :
    (ofParts [] parts).head? = none := by
  rw [ofParts, List.nil_append]
  cases kept : withoutIdleEnd parts with
  | nil => rfl
  | cons first later =>
    have initial : parts.head? = some first := head_withoutIdleEnd (by rw [kept]; rfl)
    have plain : slash ∉ first := clear first (List.mem_of_head? initial)
    by_cases more : later = []
    · subst more
      have alone : joinSlash [first] = first ++ [] := by simp [joinSlash, List.intercalate]
      rw [alone]
      exact head_busy (opening first initial) plain
    · rw [joinSlash_cons first more]
      exact head_busy (opening first initial) plain

theorem components_ofParts_nil (clear : ∀ part ∈ parts, slash ∉ part)
    (opening : ∀ part, parts.head? = some part → idle part = false) :
    (ofParts [] parts).components = named parts := by
  rw [(headless _ (head_ofParts_nil clear opening)).1, ofParts, List.nil_append,
    named_splitSlash_joinSlash (withoutIdleEnd_clear clear), named_withoutIdleEnd]

theorem head_text {p : Path} (head : p.head? = some c) :
    (c = .root ∧ p.bytes.take 1 = [slash]) ∨
      (c = .here ∧ p.bytes.take 1 = [dot] ∧ p.parts.head? = some []) := by
  obtain ⟨bytes⟩ := p
  cases bytes with
  | nil => cases head
  | cons b rest =>
    simp only [head?] at head
    split at head
    · rename_i cut
      cases Option.some.inj head
      exact .inl ⟨rfl, by simp [cut]⟩
    · split at head
      · rename_i cut
        cases Option.some.inj head
        obtain ⟨rfl, ended | next⟩ := cut
        · subst ended
          exact .inr ⟨rfl, rfl, rfl⟩
        · obtain ⟨more, rfl⟩ := List.head?_eq_some_iff.mp next
          exact .inr ⟨rfl, rfl, by simp [parts, head_dot (.inr next), splitSlash]⟩
      · cases head

theorem head_dropLast (first : (withoutIdleEnd parts).dropLast.head? = some part) :
    parts.head? = some part := by
  obtain ⟨more, whole⟩ := List.dropLast_prefix (withoutIdleEnd parts)
  apply head_withoutIdleEnd
  rw [← whole, List.head?_append, first]
  rfl

theorem first_busy {p : Path} (bare : p.head? = none) (filled : withoutIdleEnd p.parts ≠ [])
    (opening : p.parts.head? = some part) : idle part = false := by
  have whole : p.parts = splitSlash p.bytes := by simp [parts, bare]
  have text : p.bytes ≠ [] := by
    intro empty
    rw [whole, empty] at filled
    exact filled rfl
  obtain ⟨first, rest, split, busy⟩ := (headless p bare).2 text
  rw [whole, split] at opening
  cases Option.some.inj opening
  exact busy

-- The last component goes and the spelling of all before it stays.
theorem components_parent {p q : Path} (above : p.parent? = some q) :
    p.components ≠ [] ∧ q.components = p.components.dropLast := by
  have clear : ∀ part ∈ (withoutIdleEnd p.parts).dropLast, slash ∉ part := by
    intro part present
    exact withoutIdleEnd_clear (splitSlash_clear _) part (List.dropLast_subset _ present)
  unfold parent? at above
  dsimp only at above
  split at above
  · cases above
  · cases above
  · rename_i c _ head bare
    cases Option.some.inj above
    have whole : p.components = [c] := by simp [components_named, head, named_none bare]
    rw [whole]
    exact ⟨by simp, rfl⟩
  · rename_i c head _ filled
    cases Option.some.inj above
    obtain ⟨more, last⟩ := named_dropLast filled
    have whole : p.components = c :: named p.parts := by simp [components_named, head]
    rw [whole, List.dropLast_cons_of_ne_nil more, ← last]
    refine ⟨by simp, ?_⟩
    rcases head_text head with ⟨rfl, text⟩ | ⟨rfl, text, first⟩
    · rw [text, components_ofParts_slash clear]
    · rw [text, components_ofParts_dot clear]
      intro part opening
      exact Option.some.inj ((head_dropLast opening).symm.trans first)
  · rename_i kept head filled
    cases Option.some.inj above
    obtain ⟨more, last⟩ := named_dropLast filled
    have whole : p.components = named p.parts := by simp [components_named, head]
    rw [whole, ← last]
    refine ⟨more, components_ofParts_nil clear ?_⟩
    intro part opening
    exact first_busy head filled (head_dropLast opening)

theorem parent_none {p : Path} :
    p.parent? = none ↔ p.components = [] ∨ p.components = [.root] := by
  constructor
  · intro top
    unfold parent? at top
    dsimp only at top
    split at top
    · rename_i head bare
      exact .inl (by simp [components_named, head, named_none bare])
    · rename_i head bare
      exact .inr (by simp [components_named, head, named_none bare])
    all_goals cases top
  · intro short
    have alone : withoutIdleEnd p.parts = [] := by
      by_contra filled
      have more := (named_dropLast filled).1
      rcases short with bare | root
      · simp_all [components_named]
      · rw [components_named] at root
        cases named : named p.parts with
        | nil => exact more named
        | cons c rest =>
          have plain := (named_plain (c := c) (by rw [named]; simp)).1
          cases head : p.head? with
          | none => simp_all
          | some d => simp_all
    rcases short with bare | root
    · cases head : p.head? <;> simp_all [components_named, parent?]
    · cases head : p.head? <;> simp_all [components_named, parent?, named_none]

end ChapterCheck.Path
