import ChapterCheck.Proofs.PathAncestry

namespace ChapterCheck.Path

variable {base p q : Path} {parts : List (List UInt8)} {names : List Component}

theorem splitSlash_append (text rest : List UInt8) :
    splitSlash (text ++ slash :: rest) = splitSlash text ++ splitSlash rest := by
  induction text with
  | nil => exact splitSlash_slash
  | cons b text ih =>
    by_cases cut : b = slash
    · rw [cut, List.cons_append, splitSlash_slash, splitSlash_slash, ih, List.cons_append]
    · obtain ⟨part, parts, split⟩ := splitSlash_filled text
      rw [split, List.cons_append] at ih
      rw [List.cons_append, splitSlash_other cut ih, splitSlash_other cut split, List.cons_append]

theorem head_append {text : List UInt8} (filled : text ≠ []) (rest : List UInt8) :
    (Path.mk (text ++ slash :: rest)).head? = (Path.mk text).head? := by
  cases text with
  | nil => exact absurd rfl filled
  | cons b text =>
    cases text with
    | nil => simp [head?]
    | cons c text => simp [head?]

theorem components_append {text : List UInt8} (filled : text ≠ []) (rest : List UInt8) :
    (Path.mk (text ++ slash :: rest)).components =
      (Path.mk text).components ++ named (splitSlash rest) := by
  have parted : (Path.mk (text ++ slash :: rest)).parts = (Path.mk text).parts ++ splitSlash rest := by
    unfold Path.parts
    rw [head_append filled]
    cases (Path.mk text).head? with
    | none => exact splitSlash_append text rest
    | some c =>
      dsimp only
      rw [List.drop_append_of_le_length (List.length_pos_iff.mpr filled), splitSlash_append]
  rw [components_named, components_named, head_append filled, parted, named_append,
    List.append_assoc]

theorem relative (bare : p.head? = none) : p.isAbsolute = false := by
  obtain ⟨bytes⟩ := p
  cases bytes with
  | nil => rfl
  | cons b rest =>
    by_cases root : b = slash
    · rw [root, head_slash] at bare
      cases bare
    · simp [isAbsolute, root]

-- A path put behind another one adds its components, unless it has a head of its own.
theorem components_join (base : Path) (bare : p.head? = none) :
    (base.join p).components = base.components ++ p.components := by
  have alone := (headless p bare).1
  unfold join
  rw [relative bare, if_neg Bool.false_ne_true]
  by_cases blank : base.bytes = []
  · have empty : base.components = [] := components_eq_nil.mpr blank
    rw [if_pos (.inl blank), blank, empty]
    rfl
  · by_cases ended : base.bytes.getLast? = some slash
    · obtain ⟨text, whole⟩ := List.getLast?_eq_some_iff.mp ended
      rw [if_pos (.inr ended), alone, show base = ⟨text ++ slash :: []⟩ from congrArg Path.mk whole]
      rw [List.append_assoc, List.singleton_append]
      by_cases filled : text = []
      · rw [filled, List.nil_append, List.nil_append, components_slash, components_slash]
        rfl
      · rw [components_append filled, components_append filled, List.append_assoc]
        rfl
    · rw [if_neg (not_or.mpr ⟨blank, ended⟩), components_append blank, alone]

theorem named_cons (part : List UInt8) (parts : List (List UInt8)) :
    named (part :: parts) = if idle part then named parts else componentOf part :: named parts := by
  simp only [named, List.filter_cons]
  cases idle part <;> rfl

theorem named_dropComponents (n : Nat) (parts : List (List UInt8)) :
    named (dropComponents n parts) = (named parts).drop n := by
  fun_induction dropComponents n parts with
  | case1 parts => rfl
  | case2 n => rw [named, List.filter_nil, List.map_nil, List.drop_nil]
  | case3 n part parts quiet ih => rw [ih, named_cons, if_pos quiet]
  | case4 n part parts busy ih => rw [ih, named_cons, if_neg busy, List.drop_succ_cons]

theorem dropComponents_suffix (n : Nat) (parts : List (List UInt8)) :
    dropComponents n parts <:+ parts := by
  fun_induction dropComponents n parts with
  | case1 parts => exact List.suffix_refl parts
  | case2 n => exact List.suffix_refl []
  | case3 n part parts quiet ih => exact ih.trans (List.suffix_cons part parts)
  | case4 n part parts busy ih => exact ih.trans (List.suffix_cons part parts)

theorem named_dropWhile (parts : List (List UInt8)) : named (parts.dropWhile idle) = named parts := by
  induction parts with
  | nil => rfl
  | cons part parts ih =>
    rw [List.dropWhile_cons, named_cons]
    split
    · exact ih
    · rename_i busy
      rw [named_cons, if_neg busy]

theorem head_plain (plain : ∀ c ∈ p.components, c ≠ .root ∧ c ≠ .here) : p.head? = none := by
  cases head : p.head? with
  | none => rfl
  | some c =>
    have present : c ∈ p.components := by simp [components_named, head]
    rcases head_text head with ⟨root, -⟩ | ⟨here, -⟩
    · exact absurd root (plain c present).1
    · exact absurd here (plain c present).2

theorem dropWhile_busy (parts : List (List UInt8)) :
    ∀ part, (parts.dropWhile idle).head? = some part → idle part = false := by
  intro part first
  have busy := List.head?_dropWhile_not idle parts
  rwa [first] at busy

theorem parts_clear (p : Path) : ∀ part ∈ p.parts, slash ∉ part := by
  unfold Path.parts
  exact splitSlash_clear _

theorem relativeTo_names (whole : p.components = base.components ++ names) (filled : names ≠ [])
    (plain : ∀ c ∈ names, c ≠ .root ∧ c ≠ .here) :
    ∃ left, p.relativeTo? base = some left ∧ left.head? = none ∧ left.components = names := by
  have above : base.components.isPrefixOf p.components = true :=
    List.isPrefixOf_iff_prefix.mpr ⟨names, whole.symm⟩
  have clear := parts_clear p
  unfold relativeTo?
  dsimp only
  rw [if_pos above]
  by_cases top : base.components = []
  · rw [top, List.nil_append] at whole
    have bare : p.head? = none := head_plain (whole ▸ plain)
    have text : p.bytes ≠ [] := fun empty => filled (whole ▸ components_eq_nil.mpr empty)
    obtain ⟨first, rest, split, busy⟩ := (headless p bare).2 text
    have opening : ∀ part, p.parts.head? = some part → idle part = false := by
      intro part initial
      have parted : p.parts = splitSlash p.bytes := by simp [parts, bare]
      rw [parted, split] at initial
      exact Option.some.inj initial ▸ busy
    have named : named p.parts = names := by
      rw [← whole, components_named, bare]
      rfl
    rw [top, bare]
    exact ⟨_, rfl, head_ofParts_nil clear opening, (components_ofParts_nil clear opening).trans named⟩
  · have long : p.head?.toList.length ≤ base.components.length := by
      have one := List.length_pos_iff.mpr top
      cases p.head? with
      | none => exact Nat.zero_le _
      | some c => exact one
    have named : named (dropComponents (base.components.length - p.head?.toList.length) p.parts) =
        names := by
      rw [named_dropComponents]
      calc (named p.parts).drop (base.components.length - p.head?.toList.length)
          = p.components.drop base.components.length := by
            rw [components_named p, List.drop_append, List.drop_of_length_le long, List.nil_append]
        _ = names := by rw [whole, List.drop_left]
    have kept : ∀ part ∈ (dropComponents (base.components.length - p.head?.toList.length)
        p.parts).dropWhile idle, slash ∉ part := by
      have suffix := (List.dropWhile_suffix idle).trans
        (dropComponents_suffix (base.components.length - p.head?.toList.length) p.parts)
      exact fun part present => clear part (suffix.subset present)
    rw [if_neg (mt List.isEmpty_iff.mp top)]
    refine ⟨_, rfl, head_ofParts_nil kept (dropWhile_busy _), ?_⟩
    rw [components_ofParts_nil kept (dropWhile_busy _), named_dropWhile, named]

end ChapterCheck.Path
