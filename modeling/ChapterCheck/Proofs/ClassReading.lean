import ChapterCheck.Proofs.SourceMarks

namespace ChapterCheck.Pattern

namespace Item

def span : Item → Nat × Nat
  | .one s => CharSet.point s.meant
  | .range first last => (first.meant.toNat, last.meant.toNat)

-- The members of a class once what was read last can no longer begin a range.
def settled (ranges : List (Nat × Nat)) (before : Option Sign) : List (Nat × Nat) :=
  ranges ++ before.toList.map fun s => CharSet.point s.meant

theorem fits_single (fits : Fits (some b) s) (ranges : List (Nat × Nat)) :
    (ClassScan.mk ranges (some b.mark) false).doubles s.mark = false := by
  cases doubled : (ClassScan.mk ranges (some b.mark) false).doubles s.mark with
  | false => rfl
  | true =>
    rw [ClassScan.doubles, Bool.and_eq_true, decide_eq_true_eq, Option.some.injEq] at doubled
    obtain ⟨same, operator⟩ := doubled
    have named : ∃ c ∈ ['-', '&', '~'], s.mark = .plain c := by simpa using operator
    obtain ⟨c, present, met⟩ := named
    exact absurd (Sign.mark_plain.mp (same.trans met)) (fits.2.2 c present (Sign.mark_plain.mp met))

theorem step_fits (fits : Fits before s) (own : s.bare? = some '-' → before = none)
    (ranges : List (Nat × Nat)) :
    (ClassScan.mk ranges (before.map Sign.mark) false).step s.mark =
      .ok ⟨settled ranges before, some s.mark, false⟩ := by
  have opened : s.mark ≠ .plain '[' := mt Sign.mark_plain.mp fits.1
  cases before with
  | none => simp [ClassScan.step, opened, settled]
  | some b =>
    have hyphen : s.mark ≠ .plain '-' := fun met => nomatch own (Sign.mark_plain.mp met)
    simp [ClassScan.step, opened, hyphen, fits_single fits, ClassScan.settle, ClassScan.put, settled,
      Sign.mark_char, CharSet.point]

theorem classFrom_step {c : ClassScan} (within : m ≠ .plain ']') (step : c.step m = .ok next)
    (rest : List Mark) : classFrom c (m :: rest) = classFrom next rest := by
  rw [classFrom, if_neg within, step]

theorem classFrom_closed (ranges : List (Nat × Nat)) (before : Option Sign) (rest : List Mark) :
    classFrom ⟨ranges, before.map Sign.mark, false⟩ (.plain ']' :: rest) =
      .ok (settled ranges before, rest) := by
  rw [classFrom, if_pos rfl]
  cases before with
  | none => simp [ClassScan.settle, settled]
  | some b => simp [ClassScan.settle, ClassScan.put, settled, Sign.mark_char, CharSet.point]

-- A hyphen behind a sign waits for the end of a range, or for the end of the class.
theorem step_hyphen {b : Sign} (other : b.bare? ≠ some '-') (ranges : List (Nat × Nat)) :
    (ClassScan.mk ranges (some b.mark) false).step (.plain '-') =
      .ok ⟨ranges, some b.mark, true⟩ := by
  have single : b.mark ≠ .plain '-' := mt Sign.mark_plain.mp other
  simp [ClassScan.step, ClassScan.doubles, single]

theorem step_last (other : last.bare? ≠ some '-') (ordered : first.meant ≤ last.meant)
    (ranges : List (Nat × Nat)) :
    (ClassScan.mk ranges (some first.mark) true).step last.mark =
      .ok ⟨ranges ++ [span (.range first last)], none, false⟩ := by
  have single : last.mark ≠ .plain '-' := mt Sign.mark_plain.mp other
  simp [ClassScan.step, single, Sign.mark_char, ordered, ClassScan.put, span]

theorem classFrom_items (follow : Follow before items) (ranges : List (Nat × Nat))
    (rest : List Mark) :
    classFrom ⟨ranges, before.map Sign.mark, false⟩
        ((items.flatMap signs).map Sign.mark ++ .plain ']' :: rest) =
      .ok (settled ranges before ++ items.map span, rest) := by
  induction items generalizing before ranges with
  | nil =>
    rw [List.map_nil, List.append_nil]
    exact classFrom_closed ranges before rest
  | cons i items ih =>
    cases i with
    | one s =>
      obtain ⟨fits, hyphen, follow⟩ := follow
      have within : s.mark ≠ .plain ']' := mt Sign.mark_plain.mp fits.2.1
      rw [List.flatMap_cons, signs, List.singleton_append, List.map_cons, List.cons_append]
      by_cases own : s.bare? = some '-' → before = none
      · rw [classFrom_step within (step_fits fits own ranges)]
        refine (ih follow (settled ranges before)).trans ?_
        simp [settled, span]
      · obtain ⟨bare, behind⟩ := Classical.not_imp.mp own
        obtain ⟨b, rfl⟩ := Option.ne_none_iff_exists'.mp behind
        obtain rfl : items = [] := (hyphen bare).resolve_left behind
        have other : b.bare? ≠ some '-' := fits.2.2 '-' (by simp) bare
        rw [Sign.mark_plain.mpr bare] at within ⊢
        rw [Option.map_some, classFrom_step within (step_hyphen other ranges)]
        have meant : s.meant = '-' := by rw [← Sign.mark_char, Sign.mark_plain.mpr bare]; rfl
        simp [classFrom, ClassScan.settle, ClassScan.put, settled, span, meant, Sign.mark_char,
          CharSet.point]
    | range first last =>
      obtain ⟨fits, other, within', other', ordered, follow⟩ := follow
      have within : first.mark ≠ .plain ']' := mt Sign.mark_plain.mp fits.2.1
      have begun := step_fits fits (fun bare => absurd bare other) ranges
      have marks : ((Item.range first last :: items).flatMap signs).map Sign.mark =
          first.mark :: .plain '-' :: last.mark :: (items.flatMap signs).map Sign.mark := by
        simp [signs, Sign.mark_bare]
      rw [marks, List.cons_append, List.cons_append, List.cons_append, classFrom_step within begun,
        classFrom_step (by decide) (step_hyphen other _),
        classFrom_step (mt Sign.mark_plain.mp within') (step_last other' ordered _)]
      refine (ih follow (settled ranges before ++ [span (.range first last)])).trans ?_
      simp [settled]

theorem follow_head (follow : Follow before items) :
    ∀ s ∈ (items.flatMap signs).head?, Fits before s := by
  intro s first
  cases items with
  | nil => cases first
  | cons i items =>
    cases i with
    | one s' =>
      cases first
      exact follow.1
    | range s' last =>
      cases first
      exact follow.1

theorem signs_filled {items : List Item} (filled : items ≠ []) :
    ∃ s rest, items.flatMap signs = s :: rest := by
  cases items with
  | nil => exact absurd rfl filled
  | cons i items => cases i <;> exact ⟨_, _, rfl⟩

end Item

def Lead.spans : Lead → List (Nat × Nat)
  | .hyphens n => List.replicate n (CharSet.point '-')
  | .bracket => [CharSet.point ']']

namespace Members

def spans (m : Members) : List (Nat × Nat) := m.lead.spans ++ m.items.map Item.span

def bodyMarks (m : Members) (rest : List Mark) : List Mark :=
  m.lead.signs.map Sign.mark ++ ((m.items.flatMap Item.signs).map Sign.mark ++ .plain ']' :: rest)

theorem items_head (m : Members) (rest : List Mark) :
    ∃ x after, (m.items.flatMap Item.signs).map Sign.mark ++ .plain ']' :: rest = x :: after ∧
      (m.lead ≠ .bracket → x ≠ .plain '-') ∧
      (m.lead = .hyphens 0 → x ≠ .plain ']' ∧ (m.negated = false → x ≠ .plain '^')) := by
  by_cases empty : m.items = []
  · rw [empty]
    exact ⟨_, _, rfl, fun _ => nofun, fun bare => absurd empty (m.filled bare)⟩
  · obtain ⟨s, signs, first⟩ := Item.signs_filled empty
    have fits := Item.follow_head m.follow s (by rw [first]; rfl)
    have apart := m.apart s (by rw [first]; rfl)
    rw [first]
    refine ⟨s.mark, signs.map Sign.mark ++ .plain ']' :: rest, rfl, ?_, ?_⟩
    · exact fun lead => mt Sign.mark_plain.mp (apart.1 lead)
    · exact fun bare => ⟨mt Sign.mark_plain.mp fits.2.1,
        fun negated => mt Sign.mark_plain.mp (apart.2 bare negated)⟩

theorem readMembers_hyphens (n : Nat) (other : x ≠ .plain '-') (within : n = 0 → x ≠ .plain ']') :
    readMembers (List.replicate n (.plain '-') ++ x :: after) =
      classFrom ⟨List.replicate n (CharSet.point '-'), none, false⟩ (x :: after) := by
  have hyphens : (List.replicate n (Mark.plain '-') ++ x :: after).takeWhile (· = .plain '-') =
      List.replicate n (.plain '-') := by
    rw [List.takeWhile_append_of_pos (by simp), List.takeWhile_cons_of_neg (by simpa using other),
      List.append_nil]
  unfold readMembers
  dsimp only
  rw [hyphens, List.drop_left, List.map_replicate]
  cases n with
  | zero =>
    split
    · rename_i equal
      exact absurd (List.cons.inj equal).1 (within rfl)
    · rfl
  | succ n => rfl

theorem readMembers_body (m : Members) (rest : List Mark) :
    readMembers (m.bodyMarks rest) = .ok (m.spans, rest) := by
  have items := fun ranges => Item.classFrom_items m.follow ranges rest
  simp only [Option.map_none, Item.settled, Option.toList_none, List.map_nil, List.append_nil] at items
  obtain ⟨x, after, whole, other, bare⟩ := m.items_head rest
  unfold bodyMarks spans
  cases lead : m.lead with
  | bracket => exact items [CharSet.point ']']
  | hyphens n =>
    have begun : m.lead ≠ .bracket := by rw [lead]; exact nofun
    rw [← items, whole, Lead.signs, List.map_replicate, Sign.mark_bare]
    refine readMembers_hyphens n (other begun) ?_
    rintro rfl
    exact (bare lead).1

theorem readClass_body (m : Members) (rest : List Mark) :
    readClass ((if m.negated then [.plain '^'] else []) ++ m.bodyMarks rest) =
      .ok (.members m.spans m.negated, rest) := by
  cases negated : m.negated with
  | true =>
    rw [if_pos rfl, List.singleton_append, readClass, readMembers_body]
    rfl
  | false =>
    have plain : ∀ after, m.bodyMarks rest ≠ .plain '^' :: after := by
      intro after equal
      obtain ⟨x, after', whole, -, bare⟩ := m.items_head rest
      unfold bodyMarks at equal
      cases lead : m.lead with
      | bracket => simp [lead, Lead.signs, Sign.mark] at equal
      | hyphens n =>
        cases n with
        | zero =>
          rw [lead, whole] at equal
          exact (bare lead).2 negated (List.cons.inj equal).1
        | succ n => simp [lead, Lead.signs, Sign.mark, List.replicate_succ] at equal
    rw [if_neg Bool.false_ne_true, List.nil_append, readClass, readMembers_body]
    · rfl
    · exact plain

theorem reads (m : Members) (rest : List Mark) :
    Reads (m.signs.map Sign.mark ++ rest) rest [.members m.spans m.negated] := by
  have body : readToken '[' ((if m.negated then [.plain '^'] else []) ++ m.bodyMarks rest) =
      .ok (.members m.spans m.negated, rest) := m.readClass_body rest
  have shorter : rest.length ≤
      ((if m.negated then [Mark.plain '^'] else []) ++ m.bodyMarks rest).length := by
    simp only [bodyMarks, List.length_append, List.length_cons]
    omega
  have whole : m.signs.map Sign.mark ++ rest =
      .plain '[' :: ((if m.negated then [.plain '^'] else []) ++ m.bodyMarks rest) := by
    unfold signs bodyMarks
    cases m.negated <;> simp [Sign.mark_bare]
  rw [whole]
  exact .one body shorter

end Members

end ChapterCheck.Pattern
