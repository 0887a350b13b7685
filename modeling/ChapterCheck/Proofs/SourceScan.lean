import ChapterCheck.Pattern
import ChapterCheck.Proofs.PatternReading
import ChapterCheck.Proofs.SourceMeaning

namespace ChapterCheck

theorem mapM_accepted {f : α → Except ε β} {xs : List α} {ys : List β}
    (accepted : xs.mapM f = .ok ys) : List.Forall₂ (fun x y => f x = .ok y) xs ys := by
  induction xs generalizing ys with
  | nil =>
    cases accepted
    exact .nil
  | cons x xs ih =>
    rw [List.mapM_cons] at accepted
    cases first : f x with
    | error fault =>
      rw [first] at accepted
      cases accepted
    | ok y =>
      cases others : xs.mapM f with
      | error fault =>
        rw [first, others] at accepted
        cases accepted
      | ok ys =>
        rw [first, others] at accepted
        cases accepted
        exact .cons first (ih others)

theorem related_place {R : α → β → Prop} {xs : List α} {ys : List β} (related : List.Forall₂ R xs ys)
    (i : Nat) : Option.Rel R xs[i]? ys[i]? := by
  induction related generalizing i with
  | nil => exact .none
  | cons first others ih =>
    cases i with
    | zero => exact .some first
    | succ i => exact ih i

theorem filter_places (kept : α → Bool) (xs : List α) :
    ∃ places : List Nat, places.Pairwise (· < ·) ∧
      (∀ i, i ∈ places ↔ ∃ x, xs[i]? = some x ∧ kept x = true) ∧
      (xs.filter kept).map some = places.map fun i => xs[i]? := by
  refine ⟨(List.range xs.length).filter fun i => xs[i]?.any kept, ?_, ?_, ?_⟩
  · exact List.pairwise_lt_range.filter _
  · intro i
    rw [List.mem_filter, List.mem_range, Option.any_eq_true]
    apply and_iff_right_of_imp
    intro held
    obtain ⟨x, found, -⟩ := held
    exact (List.getElem?_eq_some_iff.mp found).1
  · induction xs with
    | nil => rfl
    | cons x xs ih =>
      rw [List.length_cons, List.range_succ_eq_map, List.filter_cons, List.filter_cons]
      by_cases own : kept x = true <;>
        simp [own, ih, List.filter_map, Function.comp_def]

def Expr.eager : Expr → Expr
  | .empty => .empty
  | .chars set => .chars set
  | .start eachLine => .start eachLine
  | .finish eachLine => .finish eachLine
  | .seq first second => .seq first.eager second.eager
  | .either left right => .either left.eager right.eager
  | .times body least more _ => .times body.eager least more false

theorem Expr.eager_describes (e : Expr) : e.eager.Describes = e.Describes := by
  induction e with
  | seq first second ih ih' =>
    funext b s a
    simp only [eager, Describes, ih, ih']
  | either left right ih ih' =>
    funext b s a
    simp only [eager, Describes, ih, ih']
  | times body least more lazy ih => rw [eager, times_counted, times_counted, ih]
  | _ => rfl

namespace Pattern

theorem ofSource_occurs {label : String} {s : Source} {p : Pattern}
    (accepted : ofSource label s.text = .ok p) (content : String) :
    p.label = label ∧ (p.occursIn content ↔ s.Occurs content.toList) := by
  unfold ofSource at accepted
  cases parsed : parse s.text.toList with
  | error fault =>
    rw [parsed] at accepted
    cases accepted
  | ok e =>
    rw [parsed] at accepted
    cases accepted
    refine ⟨rfl, ?_⟩
    rw [occursIn, Expr.occursIn_exact, Expr.Occurs, s.parse_describes parsed]
    rfl

-- Of patterns by any sources, those are found whose source describes a stretch of the content,
-- each at its place in the list. Greedy or lazy makes no difference.
theorem scan_sources (sources : List (String × Source)) (patterns : List Pattern)
    (accepted : (sources.mapM fun x => ofSource x.1 x.2.text) = .ok patterns) (content : String) :
    List.Forall₂ (fun x p => p.label = x.1 ∧ (p.occursIn content ↔ x.2.Occurs content.toList))
        sources patterns ∧
      (∀ p ∈ patterns, p.expr.eager.occursIn content.toList = p.occursIn content) ∧
      ∃ places : List Nat, places.Pairwise (· < ·) ∧
        (∀ i, i ∈ places ↔ ∃ x, sources[i]? = some x ∧ x.2.Occurs content.toList) ∧
        (scan patterns content).map some = places.map fun i => patterns[i]? := by
  have related := (mapM_accepted accepted).imp fun x p given => ofSource_occurs given content
  obtain ⟨places, ascending, exactly, found⟩ := filter_places (·.occursIn content) patterns
  refine ⟨related, ?_, places, ascending, ?_, found⟩
  · intro p _
    rw [Bool.eq_iff_iff, occursIn, Expr.occursIn_exact, Expr.occursIn_exact, Expr.Occurs,
      Expr.eager_describes, Expr.Occurs]
  · intro i
    rw [exactly]
    have both := related_place related i
    generalize sources[i]? = source at both ⊢
    generalize patterns[i]? = pattern at both ⊢
    cases both with
    | none => simp
    | some both => simp [both.2]

def drafts : List (String × Source) :=
  let a : Written (.piece false) := .sign (.bare 'a') (by decide)
  let sides : Written .choice := .or (.beside a .nothing) (.only .nothing)
  let line : Written .row := .beside .start (.beside
    (.times (.group true sides) .star false nofun) (.beside .finish .nothing))
  let within : Written (.piece false) := .members
    ⟨true, .hyphens 0, [.one (.named 'n')], nofun, by decide, by decide⟩
  let two : Written .row :=
    .beside (.times within (.exactly ⟨[2], nofun, by decide⟩) true nofun) .nothing
  [("draft", ⟨[⟨[.anyCase, .eachLine], nofun, by decide⟩], .only line⟩), ("draft", ⟨[], .only two⟩)]

def draftPatterns : List Pattern :=
  [⟨"draft", .seq (.start true) (.seq
      (.times (.either (.chars (CharSet.single 'a').anyCase) .empty) 0 none true) (.finish true))⟩,
    ⟨"draft", .times (.chars ⟨[CharSet.point '\n'], true⟩) 2 (some 0) false⟩]

theorem drafts_scanned :
    (drafts.mapM fun x => ofSource x.1 x.2.text) = .ok draftPatterns ∧
      List.Forall₂ (fun x p => p.label = x.1 ∧ (p.occursIn "b\nA" ↔ x.2.Occurs "b\nA".toList))
        drafts draftPatterns ∧
      (∀ p ∈ draftPatterns, p.expr.eager.occursIn "b\nA".toList = p.occursIn "b\nA") ∧
      ∃ places : List Nat, places.Pairwise (· < ·) ∧
        (∀ i, i ∈ places ↔ ∃ x, drafts[i]? = some x ∧ x.2.Occurs "b\nA".toList) ∧
        (scan draftPatterns "b\nA").map some = places.map fun i => draftPatterns[i]? := by
  have accepted : (drafts.mapM fun x => ofSource x.1 x.2.text) = .ok draftPatterns := by
    decide +kernel
  exact ⟨accepted, scan_sources drafts draftPatterns accepted "b\nA"⟩

end Pattern
end ChapterCheck
