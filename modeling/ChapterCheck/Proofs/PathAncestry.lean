import ChapterCheck.Proofs.PathComponents

namespace ChapterCheck

theorem Place.ofNames_exact (names : List α) :
    Place.ofNames names = ⟨names.length, names.reverse⟩ := by
  have grown : ∀ (names : List α) (p : Place α),
      names.foldl below p = ⟨p.depth + names.length, names.reverse ++ p.names⟩ := by
    intro names
    induction names with
    | nil => intro p; rfl
    | cons name rest ih =>
      intro p
      simp [ih, below, Nat.add_assoc, Nat.add_comm 1]
  rw [Place.ofNames, grown]
  simp [top]

namespace Path

theorem same_exact {p q : Path} : p.same q = true ↔ p.components = q.components := by
  simp [same]

theorem same_refl (p : Path) : p.same p = true := same_exact.mpr rfl

theorem same_symm {p q : Path} (met : p.same q) : q.same p :=
  same_exact.mpr (same_exact.mp met).symm

theorem same_trans {p q r : Path} (first : p.same q) (second : q.same r) : p.same r :=
  same_exact.mpr ((same_exact.mp first).trans (same_exact.mp second))

theorem place_exact (p : Path) : p.place = ⟨p.components.length, p.components.reverse⟩ :=
  Place.ofNames_exact _

theorem place_same {p q : Path} : p.place = q.place ↔ p.same q = true := by
  rw [same_exact, place_exact, place_exact, Place.mk.injEq, List.reverse_inj]
  exact ⟨And.right, fun equal => ⟨by rw [equal], equal⟩⟩

theorem parent_grown {p q : Path} (above : p.parent? = some q) :
    ∃ c, p.components = q.components ++ [c] ∧ p.components ≠ [.root] := by
  obtain ⟨filled, before⟩ := components_parent above
  refine ⟨p.components.getLast filled, ?_, ?_⟩
  · rw [before, List.dropLast_append_getLast]
  · intro root
    rw [parent_none.mpr (.inr root)] at above
    cases above

theorem parent_exists {p : Path} (grown : p.components = names ++ [c])
    (other : p.components ≠ [.root]) : ∃ q, p.parent? = some q ∧ q.components = names := by
  cases above : p.parent? with
  | none =>
    rcases parent_none.mp above with bare | root
    · simp [bare] at grown
    · exact absurd root other
  | some q =>
    refine ⟨q, rfl, ?_⟩
    rw [(components_parent above).2, grown, List.dropLast_concat]

theorem child_respell {p q dir : Path} (met : p.same q)
    (child : ∃ r, p.parent? = some r ∧ r.same dir) : ∃ r, q.parent? = some r ∧ r.same dir := by
  obtain ⟨r, above, under⟩ := child
  obtain ⟨c, grown, other⟩ := parent_grown above
  rw [same_exact.mp met] at grown other
  obtain ⟨s, parent, before⟩ := parent_exists grown other
  exact ⟨s, parent, same_exact.mpr (before.trans (same_exact.mp under))⟩

theorem above_place (p : Path) : above? p.place = p.parent?.map place := by
  cases above : p.parent? with
  | none =>
    rcases parent_none.mp above with bare | root
    · simp [above?, place_exact, bare]
    · simp [above?, place_exact, root]
  | some q =>
    obtain ⟨c, grown, other⟩ := parent_grown above
    have backwards : p.components.reverse = c :: q.components.reverse := by simp [grown]
    simp only [place_exact, backwards, Option.map_some]
    unfold above?
    split
    · contradiction
    · rename_i root
      obtain ⟨rfl, bare⟩ : c = .root ∧ q.components = [] := by simpa using root
      exact absurd (by rw [grown, bare]; rfl) other
    · simp [Place.above, grown]

theorem above_child {p dir : Path} :
    above? p.place = some dir.place ↔ ∃ r, p.parent? = some r ∧ r.same dir := by
  rw [above_place, Option.map_eq_some_iff]
  simp only [place_same]

-- A path lies below those that are met on the way up from it, one path above at a time.
inductive Below : Path → Path → Prop where
  | direct (above : p.parent? = some r) (met : r.same q) : Below p q
  | further (above : p.parent? = some r) (rest : Below r q) : Below p q

theorem Below.grown {p q : Path} (below : p.Below q) :
    ∃ names, names ≠ [] ∧ p.components = q.components ++ names ∧
      (q.components = [] → p.components.head? ≠ some .root) := by
  induction below with
  | direct above met =>
    obtain ⟨c, grown, other⟩ := parent_grown above
    rw [same_exact.mp met] at grown
    refine ⟨[c], by simp, grown, ?_⟩
    intro bare root
    simp_all
  | further above _ ih =>
    obtain ⟨c, grown, other⟩ := parent_grown above
    obtain ⟨names, filled, whole, relative⟩ := ih
    refine ⟨names ++ [c], by simp, by rw [grown, whole, List.append_assoc], ?_⟩
    intro bare root
    apply relative bare
    rw [grown, whole, bare] at root
    rw [whole, bare]
    cases names with
    | nil => exact absurd rfl filled
    | cons name names => exact root

theorem below_grown {p q : Path} (filled : names ≠ []) (whole : p.components = q.components ++ names)
    (relative : q.components = [] → p.components.head? ≠ some .root) : p.Below q := by
  -- The last name is what the path above lacks, so it is the first to be taken off.
  induction names using List.reverseRecOn generalizing p with
  | nil => exact absurd rfl filled
  | append_singleton names c ih =>
    have other : p.components ≠ [.root] := by
      intro root
      rw [root] at whole relative
      cases start : q.components with
      | nil => exact relative start rfl
      | cons d ds => simp [start] at whole
    rw [← List.append_assoc] at whole
    obtain ⟨r, above, before⟩ := parent_exists whole other
    by_cases last : names = []
    · exact .direct above (same_exact.mpr (by simpa [last] using before))
    · refine .further above (ih last before ?_)
      intro bare root
      apply relative bare
      rw [whole, ← before, List.head?_append, root]
      rfl

theorem below_exact {p q : Path} : p.Below q ↔
    ∃ names, names ≠ [] ∧ p.components = q.components ++ names ∧
      (q.components = [] → p.components.head? ≠ some .root) := by
  constructor
  · exact Below.grown
  · intro held
    obtain ⟨names, filled, whole, relative⟩ := held
    exact below_grown filled whole relative

theorem Below.longer {p q : Path} (below : p.Below q) :
    q.components.length < p.components.length := by
  obtain ⟨names, filled, whole, -⟩ := below.grown
  have := List.length_pos_iff.mpr filled
  rw [whole, List.length_append]
  omega

theorem Below.respell {p q r s : Path} (below : p.Below q) (lower : p.same r) (upper : q.same s) :
    r.Below s := by
  rw [same_exact] at lower upper
  rw [below_exact] at below ⊢
  rwa [← lower, ← upper]

theorem empty_top (q : Path) : ¬empty.Below q := by
  have bare : empty.components = [] := components_eq_nil.mpr rfl
  intro below
  have longer := below.longer
  rw [bare] at longer
  exact Nat.not_lt_zero _ longer

theorem ancestorsWithin_exact (enough : p.components.length ≤ n) :
    (∃ a ∈ ancestorsWithin n p, a.same q) ↔ p.Below q := by
  induction n generalizing p with
  | zero =>
    constructor
    · intro held
      obtain ⟨a, ⟨⟩, -⟩ := held
    · intro below
      have := below.longer
      omega
  | succ n ih =>
    cases above : p.parent? with
    | none =>
      constructor
      · simp [ancestorsWithin, above]
      · intro below
        cases below with
        | direct found => simp [above] at found
        | further found => simp [above] at found
    | some r =>
      obtain ⟨c, grown, -⟩ := parent_grown above
      have shorter : r.components.length ≤ n := by
        rw [grown, List.length_append] at enough
        simpa using enough
      simp only [ancestorsWithin, above, List.mem_cons, exists_eq_or_imp, ih shorter]
      constructor
      · rintro (met | rest)
        · exact .direct above met
        · exact .further above rest
      · intro below
        cases below with
        | direct found met =>
          rw [above] at found
          cases found
          exact .inl met
        | further found rest =>
          rw [above] at found
          cases found
          exact .inr rest

-- The empty path, if it is met at all, is met last.
theorem ancestorsWithin_filled (n : Nat) (p : Path) :
    (ancestorsWithin n p).takeWhile (fun q => q.bytes != []) =
      (ancestorsWithin n p).filter fun q => q.bytes != [] := by
  induction n generalizing p with
  | zero => rfl
  | succ n ih =>
    cases above : p.parent? with
    | none => simp [ancestorsWithin, above]
    | some r =>
      simp only [ancestorsWithin, above]
      by_cases text : r.bytes = []
      · have last : ancestorsWithin n r = [] := by
          cases n with
          | zero => rfl
          | succ n => simp [ancestorsWithin, parent_none.mpr (.inl (components_eq_nil.mpr text))]
        simp [text, last]
      · simp [text, ih r]

theorem ancestors_exact {p q : Path} :
    (∃ a ∈ p.ancestors.takeWhile (fun a => a.bytes != []), a.same q) ↔ q ≠ empty ∧ p.Below q := by
  rw [ancestors, ancestorsWithin_filled]
  have texts : ∀ {a : Path}, a.same q → (a.bytes = [] ↔ q = empty) := by
    intro a met
    rw [← components_eq_nil, same_exact.mp met, components_eq_nil]
    obtain ⟨bytes⟩ := q
    simp [empty]
  rw [← ancestorsWithin_exact (n := p.components.length) (Nat.le_refl _)]
  constructor
  · intro held
    obtain ⟨a, present, met⟩ := held
    obtain ⟨present, text⟩ := List.mem_filter.mp present
    exact ⟨fun equal => by simp [(texts met).mpr equal] at text, a, present, met⟩
  · intro held
    obtain ⟨filled, a, present, met⟩ := held
    have text : (a.bytes != []) = true := by simpa using fun text => filled ((texts met).mp text)
    exact ⟨a, List.mem_filter.mpr ⟨present, text⟩, met⟩

end Path
end ChapterCheck
