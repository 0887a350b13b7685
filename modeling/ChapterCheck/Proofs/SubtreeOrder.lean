import ChapterCheck.Proofs.RunEnding

namespace ChapterCheck

theorem lex_between {r : α → α → Prop} [Std.Asymm r] {start p q s : List α}
    (before : List.Lex r p q) (behind : List.Lex r q s) (first : start <+: p)
    (last : start <+: s) : start <+: q := by
  induction start generalizing p q s with
  | nil => exact List.nil_prefix
  | cons x start ih =>
    obtain ⟨p, rfl⟩ := first
    obtain ⟨s, rfl⟩ := last
    cases before with
    | rel less =>
      cases behind with
      | rel more => exact absurd more (asymm less)
      | cons more => exact absurd less (asymm less)
    | cons before =>
      cases behind with
      | rel more => exact absurd more (asymm more)
      | cons behind =>
        obtain ⟨rest, rfl⟩ := ih before behind (List.prefix_append _ _) (List.prefix_append _ _)
        exact ⟨rest, rfl⟩

-- What is between two members is a member: so the members of a list in order stand together.
theorem members_together {r : α → α → Prop} {xs : List α} (held : α → Prop)
    (between : ∀ x y z, r x y → r y z → held x → held z → held y) (ordered : xs.Pairwise r) :
    ∃ front inside back, xs = front ++ inside ++ back ∧ (∀ x ∈ inside, held x) ∧
      ∀ x ∈ front ++ back, ¬held x := by
  induction ordered with
  | nil => exact ⟨[], [], [], rfl, by simp, by simp⟩
  | @cons x xs behind ordered ih =>
    obtain ⟨front, inside, back, rfl, all, apart⟩ := ih
    by_cases own : held x
    · cases front with
      | nil => exact ⟨[], x :: inside, back, rfl, List.forall_mem_cons.mpr ⟨own, all⟩, apart⟩
      | cons y front =>
        -- Here y is no member, so nothing behind it is one.
        have empty : inside = [] := by
          refine List.eq_nil_iff_forall_not_mem.mpr fun z present => ?_
          have first : r x y := behind y (by simp)
          have second : r y z := by
            rw [List.append_assoc, List.cons_append, List.pairwise_cons] at ordered
            exact ordered.1 z (by simp [present])
          exact apart y (by simp) (between x y z first second own (all z present))
        subst empty
        refine ⟨[], [x], y :: front ++ back, by simp, by simpa using own, ?_⟩
        simpa using apart
    · refine ⟨x :: front, inside, back, rfl, all, ?_⟩
      exact List.forall_mem_cons.mpr ⟨own, apart⟩

namespace Component

theorem root_first (a : Component) : ¬a.Precedes .root := by
  intro precedes
  cases precedes with
  | rank lower => exact Nat.not_lt_zero _ lower

end Component

namespace Path

theorem below_between {d p q s : Path} (before : p.Before q) (behind : q.Before s)
    (first : p.Below d) (last : s.Below d) : q.Below d := by
  obtain ⟨names, filled, whole, relative⟩ := first.grown
  obtain ⟨names', -, whole', -⟩ := last.grown
  rw [before_components] at before behind
  obtain ⟨rest, grown⟩ := lex_between before behind ⟨names, whole.symm⟩ ⟨names', whole'.symm⟩
  rw [whole, ← grown, lex_append] at before
  refine below_grown ?_ grown.symm ?_
  · intro top
    rw [top] at before
    cases before
  · intro bare root
    rw [bare, List.nil_append] at whole grown
    rw [grown] at before
    rw [whole] at relative
    cases names with
    | nil => exact filled rfl
    | cons c names =>
      obtain ⟨more, equal⟩ := List.head?_eq_some_iff.mp root
      rw [equal] at before
      cases before with
      | rel lower => exact c.root_first lower
      | cons _ => exact relative bare rfl

end Path

namespace Validation

-- Documents are told of in the order of their components, and what is found below a directory
-- stands together.
theorem findings_together (tree : ContentTree) (config : Config) (report : Report)
    (finite : tree.FiniteBelow config.root) (children : tree.ListsChildren config.root)
    (apart : tree.ListsApart config.root) (done : validate tree config = .ok report) :
    ∃ documents : List (Path × List UInt8),
      (∀ p bytes, (p, bytes) ∈ documents ↔
        tree.IsDocument config.root config.extension p ∧ tree.read p = .ok bytes) ∧
      (documents.Pairwise fun a b => List.Lex Component.Precedes a.1.components b.1.components) ∧
      report = reportOf config documents ∧
      ∀ d, ∃ front inside back, documents = front ++ inside ++ back ∧
        (∀ x ∈ inside, x.1.Below d) ∧ (∀ x ∈ front ++ back, ¬x.1.Below d) ∧
        report.findings = (reportOf config front).findings ++ (reportOf config inside).findings ++
          (reportOf config back).findings := by
  obtain ⟨listings, surveyed, readable, rfl⟩ := validate_done done
  have ordered : (holding tree (documentsOf listings config.extension)).Pairwise
      fun a b => a.1.Before b.1 :=
    List.pairwise_map.mpr (documentsOf_before finite (children.once apart) surveyed)
  refine ⟨holding tree (documentsOf listings config.extension), ?_, ?_, rfl, ?_⟩
  · intro p bytes
    rw [mem_holding readable, mem_documentsOf finite surveyed]
  · exact ordered.imp Path.before_components.mp
  · intro d
    have between : ∀ x y z : Path × List UInt8, x.1.Before y.1 → y.1.Before z.1 →
        x.1.Below d → z.1.Below d → y.1.Below d :=
      fun _ _ _ first second => Path.below_between first second
    obtain ⟨front, inside, back, whole, below, beside⟩ := members_together _ between ordered
    refine ⟨front, inside, back, whole, below, beside, ?_⟩
    rw [whole]
    simp only [reportOf, List.flatMap_append]

-- A directory beside others with names that begin like its own.
def siblings : List MemoryTree.Step :=
  [.file (.ofString "docs/a-b/c.md") [], .file (.ofString "docs/a/d.md") [],
    .file (.ofString "docs/a.md") [], .file (.ofString "docs/a/b/c.md") []]

theorem siblings_together : ∃ report,
    validate (MemoryTree.build siblings).contents handbookConfig = .ok report ∧
      ∃ front inside back, report = reportOf handbookConfig (front ++ inside ++ back) ∧
        (∀ x ∈ inside, x.1.Below (.ofString "docs/a")) ∧
        ∀ x ∈ front ++ back, ¬x.1.Below (.ofString "docs/a") := by
  have keyed := MemoryTree.build_keyed siblings
  have finite := MemoryTree.finite_below keyed handbookConfig.root
  obtain ⟨report, done⟩ : ∃ report,
      validate (MemoryTree.build siblings).contents handbookConfig = .ok report :=
    build_reports (by simp [siblings]) (by simp [siblings]) (by decide)
  obtain ⟨documents, -, -, told, pieces⟩ := findings_together _ handbookConfig report finite
    (MemoryTree.lists_children keyed _) (MemoryTree.lists_apart keyed _) done
  obtain ⟨front, inside, back, rfl, below, beside, -⟩ := pieces (.ofString "docs/a")
  exact ⟨report, done, front, inside, back, told, below, beside⟩

end Validation
end ChapterCheck
