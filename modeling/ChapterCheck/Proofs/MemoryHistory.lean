import ChapterCheck.MemoryTree
import ChapterCheck.Proofs.PathAncestry
import Mathlib.Data.List.Nodup

namespace ChapterCheck.MemoryTree

abbrev Row := Place Component × Path × Node

namespace Step

def path : Step → Path
  | .directory p => p
  | .file p _ => p
  | .unreadable p => p
  | .link p => p
  | .unlistable p => p

def node : Step → Node
  | .directory _ => .directory
  | .file _ content => .file content
  | .unreadable _ => .unreadable
  | .link _ => .link
  | .unlistable _ => .directory

-- A step says what is at its own path and at every path that it lies below, save the
-- empty one.
def Concerns (s : Step) (p : Path) : Prop := s.path.same p ∨ (p ≠ .empty ∧ s.path.Below p)

def nodeAt (s : Step) (p : Path) : Node := if s.path.same p then s.node else .directory

end Step

variable {t : MemoryTree} {nodes : List Row} {steps : List Step} {s : Step} {p q dir : Path}
  {node : Node}

def Decided (steps : List Step) (p : Path) (node : Node) : Prop :=
  ∃ earlier s later, steps = earlier ++ s :: later ∧ s.Concerns p ∧
    (∀ x ∈ later, ¬x.Concerns p) ∧ s.nodeAt p = node

def Refused (steps : List Step) (p : Path) : Prop := ∃ q, .unlistable q ∈ steps ∧ q.same p

theorem decided_last (concerned : s.Concerns p) :
    Decided (steps ++ [s]) p node ↔ s.nodeAt p = node := by
  constructor
  · intro held
    obtain ⟨earlier, x, later, whole, -, silent, rfl⟩ := held
    cases later using List.reverseRecOn with
    | nil =>
      obtain ⟨rfl, rfl⟩ := List.append_singleton_inj.mp whole
      rfl
    | append_singleton later y =>
      rw [← List.cons_append, ← List.append_assoc] at whole
      obtain ⟨-, rfl⟩ := List.append_singleton_inj.mp whole
      exact absurd concerned (silent s (by simp))
  · intro decided
    exact ⟨steps, s, [], rfl, concerned, by simp, decided⟩

theorem decided_before (silent : ¬s.Concerns p) :
    Decided (steps ++ [s]) p node ↔ Decided steps p node := by
  constructor
  · intro held
    obtain ⟨earlier, x, later, whole, concerned, after, decided⟩ := held
    cases later using List.reverseRecOn with
    | nil =>
      obtain ⟨rfl, rfl⟩ := List.append_singleton_inj.mp whole
      exact absurd concerned silent
    | append_singleton later y =>
      rw [← List.cons_append, ← List.append_assoc] at whole
      obtain ⟨rfl, rfl⟩ := List.append_singleton_inj.mp whole
      exact ⟨earlier, x, later, rfl, concerned, fun z present => after z (by simp [present]), decided⟩
  · intro held
    obtain ⟨earlier, x, later, rfl, concerned, after, decided⟩ := held
    refine ⟨earlier, x, later ++ [s], by simp, concerned, ?_, decided⟩
    intro z present
    rcases List.mem_append.mp present with old | new
    · exact after z old
    · rw [List.mem_singleton.mp new]
      exact silent

structure Keyed (nodes : List Row) : Prop where
  placed : ∀ row ∈ nodes, row.1 = row.2.1.place
  single : (nodes.map Prod.fst).Nodup

theorem insertAt_keys (place : Place Component) (p : Path) (node : Node) (nodes : List Row) :
    (insertAt place p node nodes).map Prod.fst =
      if place ∈ nodes.map Prod.fst then nodes.map Prod.fst else nodes.map Prod.fst ++ [place] := by
  induction nodes with
  | nil => rfl
  | cons row rest ih =>
    obtain ⟨held, q, old⟩ := row
    by_cases here : place = held
    · simp [insertAt, here]
    · simp only [insertAt, beq_iff_eq, here, if_false, List.map_cons, List.mem_cons, false_or, ih]
      split <;> rfl

theorem insert_placed (placed : ∀ row ∈ nodes, row.1 = row.2.1.place) :
    ∀ row ∈ insert p node nodes, row.1 = row.2.1.place := by
  unfold insert
  induction nodes with
  | nil => simp [insertAt]
  | cons row rest ih =>
    obtain ⟨held, q, old⟩ := row
    have own := placed _ List.mem_cons_self
    have others := fun row present => placed row (List.mem_cons_of_mem _ present)
    unfold insertAt
    split
    · simp only [List.mem_cons, forall_eq_or_imp]
      exact ⟨own, others⟩
    · simp only [List.mem_cons, forall_eq_or_imp]
      exact ⟨own, ih others⟩

theorem insert_keyed (keyed : Keyed nodes) (p : Path) (node : Node) :
    Keyed (insert p node nodes) := by
  refine ⟨insert_placed keyed.placed, ?_⟩
  rw [insert, insertAt_keys]
  split
  · exact keyed.single
  · rename_i fresh
    simpa using List.Nodup.concat fresh keyed.single

theorem put_keyed (keyed : Keyed t.nodes) (p : Path) (node : Node) :
    Keyed (t.put p node).nodes := by
  apply insert_keyed
  generalize (p.ancestors.takeWhile fun q => q.bytes != []) = above
  have grown : ∀ nodes : List Row, Keyed nodes →
      Keyed (above.foldl (fun nodes q => insert q .directory nodes) nodes) := by
    induction above with
    | nil => exact fun _ keyed => keyed
    | cons q rest ih => exact fun _ keyed => ih _ (insert_keyed keyed q .directory)
  exact grown t.nodes keyed

theorem apply_nodes (t : MemoryTree) (s : Step) : (t.apply s).nodes = (t.put s.path s.node).nodes := by
  cases s <;> rfl

theorem build_keyed (steps : List Step) : Keyed (build steps).nodes := by
  induction steps using List.reverseRecOn with
  | nil => exact ⟨by simp [build, empty], by simp [build, empty]⟩
  | append_singleton steps s ih =>
    rw [build, List.foldl_append, List.foldl_cons, List.foldl_nil, apply_nodes]
    exact put_keyed ih _ _

theorem lookup_apart [BEq α] [LawfulBEq α] {held sought : α} (apart : held ≠ sought) (x : β)
    (rest : List (α × β)) : ((held, x) :: rest).lookup sought = rest.lookup sought := by
  have other : (sought == held) = false := beq_eq_false_iff_ne.mpr (Ne.symm apart)
  rw [List.lookup_cons, other]

theorem lookup_insertAt (place sought : Place Component) (p : Path) (node : Node)
    (nodes : List Row) :
    ((insertAt place p node nodes).lookup sought).map Prod.snd =
      if place = sought then some node else (nodes.lookup sought).map Prod.snd := by
  induction nodes with
  | nil =>
    by_cases here : place = sought
    · simp [insertAt, here]
    · simp [insertAt, lookup_apart here, here]
  | cons row rest ih =>
    obtain ⟨held, q, old⟩ := row
    by_cases here : place = held
    · subst here
      by_cases met : place = sought
      · simp [insertAt, met]
      · simp [insertAt, lookup_apart met, met]
    · by_cases met : held = sought
      · subst met
        simp [insertAt, here]
      · simp [insertAt, here, lookup_apart met, ih]

theorem find_insert (t : MemoryTree) (p q : Path) (node : Node) :
    find? { t with nodes := insert p node t.nodes } q =
      if p.same q then some node else t.find? q := by
  simp only [find?, insert, lookup_insertAt, Path.place_same]

theorem find_directories (t : MemoryTree) (above : List Path) (q : Path) :
    find? { t with nodes := above.foldl (fun nodes q => insert q .directory nodes) t.nodes } q =
      if above.any (·.same q) then some .directory else t.find? q := by
  induction above generalizing t with
  | nil => rfl
  | cons a rest ih =>
    have tail := ih { t with nodes := insert a .directory t.nodes }
    simp only [List.foldl_cons, List.any_cons, Bool.or_eq_true] at tail ⊢
    rw [tail, find_insert]
    by_cases met : a.same q <;> simp [met]

theorem find_put (t : MemoryTree) (p q : Path) (node : Node) :
    (p.same q → (t.put p node).find? q = some node) ∧
      (¬p.same q → q ≠ .empty ∧ p.Below q → (t.put p node).find? q = some .directory) ∧
      (¬p.same q → ¬(q ≠ .empty ∧ p.Below q) → (t.put p node).find? q = t.find? q) := by
  have whole : (t.put p node).find? q =
      if p.same q then some node
      else if (p.ancestors.takeWhile fun a => a.bytes != []).any (·.same q) then some .directory
      else t.find? q := by
    rw [← find_directories, ← find_insert]
    rfl
  have above : (p.ancestors.takeWhile fun a => a.bytes != []).any (·.same q) = true ↔
      q ≠ .empty ∧ p.Below q := by
    rw [List.any_eq_true, Path.ancestors_exact]
  rw [whole]
  refine ⟨?_, ?_, ?_⟩
  · intro met
    rw [if_pos met]
  · intro apart lower
    rw [if_neg apart, if_pos (above.mpr lower)]
  · intro apart clear
    rw [if_neg apart, if_neg (fun found => clear (above.mp found))]

theorem find_apply (t : MemoryTree) (s : Step) (p : Path) :
    (t.apply s).find? p = (t.put s.path s.node).find? p := by
  simp only [find?, apply_nodes]

theorem apply_concerned (t : MemoryTree) (concerned : s.Concerns p) :
    (t.apply s).find? p = some (s.nodeAt p) := by
  obtain ⟨own, above, -⟩ := find_put t s.path p s.node
  rw [find_apply]
  by_cases met : s.path.same p
  · rw [own met, Step.nodeAt, if_pos met]
  · rw [above met (concerned.resolve_left met), Step.nodeAt, if_neg met]

theorem apply_frame (t : MemoryTree) (silent : ¬s.Concerns p) : (t.apply s).find? p = t.find? p := by
  obtain ⟨-, -, other⟩ := find_put t s.path p s.node
  simp only [Step.Concerns, not_or] at silent
  rw [find_apply, other silent.1 silent.2]

theorem build_concat (steps : List Step) (s : Step) :
    build (steps ++ [s]) = (build steps).apply s := by
  simp [build]

theorem build_found (steps : List Step) (p : Path) (node : Node) :
    (build steps).find? p = some node ↔ Decided steps p node := by
  -- The last step that concerns the path decides, so steps are taken off at the end.
  induction steps using List.reverseRecOn with
  | nil =>
    constructor
    · intro found
      cases found
    · intro held
      obtain ⟨earlier, s, later, whole, -⟩ := held
      simp at whole
  | append_singleton steps s ih =>
    rw [build_concat]
    by_cases concerned : s.Concerns p
    · rw [apply_concerned _ concerned, decided_last concerned, Option.some.injEq]
    · rw [apply_frame _ concerned, decided_before concerned, ih]

theorem build_absent (steps : List Step) (p : Path) :
    (build steps).find? p = none ↔ ∀ s ∈ steps, ¬s.Concerns p := by
  induction steps using List.reverseRecOn with
  | nil => exact ⟨fun _ => by simp, fun _ => rfl⟩
  | append_singleton steps s ih =>
    rw [build_concat]
    by_cases concerned : s.Concerns p
    · rw [apply_concerned _ concerned]
      constructor
      · intro absent
        cases absent
      · intro silent
        exact absurd concerned (silent s (by simp))
    · rw [apply_frame _ concerned, ih]
      simp [or_imp, forall_and, concerned]

theorem unreadable_given (found : (build steps).find? p = some .unreadable) :
    ∃ q, .unreadable q ∈ steps := by
  obtain ⟨earlier, s, later, rfl, -, -, decided⟩ := (build_found steps p _).mp found
  unfold Step.nodeAt at decided
  split at decided
  · cases s with
    | unreadable q => exact ⟨q, by simp⟩
    | directory q => cases decided
    | file q content => cases decided
    | link q => cases decided
    | unlistable q => cases decided
  · cases decided

theorem apply_refusing (t : MemoryTree) (s : Step) (p : Path) :
    (t.apply s).refusing.any (·.same p) = true ↔
      t.refusing.any (·.same p) = true ∨ ∃ q, s = .unlistable q ∧ q.same p := by
  cases s <;> simp [apply, put]

theorem build_refusing (steps : List Step) (p : Path) :
    (build steps).refusing.any (·.same p) = true ↔ Refused steps p := by
  induction steps using List.reverseRecOn with
  | nil => simp [build, empty, Refused]
  | append_singleton steps s ih =>
    rw [build_concat, apply_refusing, ih]
    constructor
    · rintro (⟨q, present, met⟩ | ⟨q, rfl, met⟩)
      · exact ⟨q, List.mem_append_left _ present, met⟩
      · exact ⟨q, List.mem_append_right _ List.mem_cons_self, met⟩
    · intro held
      obtain ⟨q, present, met⟩ := held
      rcases List.mem_append.mp present with old | new
      · exact .inl ⟨q, old, met⟩
      · exact .inr ⟨q, (List.mem_singleton.mp new).symm, met⟩

theorem lookup_row (single : (nodes.map Prod.fst).Nodup) (present : row ∈ nodes) :
    nodes.lookup row.1 = some row.2 := by
  induction nodes with
  | nil => cases present
  | cons first rest ih =>
    obtain ⟨held, x⟩ := first
    obtain ⟨fresh, single⟩ := List.nodup_cons.mp single
    rcases List.mem_cons.mp present with rfl | later
    · simp
    · have apart : held ≠ row.1 := by
        intro equal
        subst equal
        exact fresh (List.mem_map.mpr ⟨row, later, rfl⟩)
      rw [lookup_apart apart, ih single later]

theorem row_of_lookup (found : nodes.lookup place = some x) : (place, x) ∈ nodes := by
  induction nodes with
  | nil => cases found
  | cons first rest ih =>
    obtain ⟨held, y⟩ := first
    by_cases here : held = place
    · subst here
      simp only [List.lookup_cons_self, Option.some.injEq] at found
      rw [found]
      exact List.mem_cons_self
    · rw [lookup_apart here] at found
      exact List.mem_cons_of_mem _ (ih found)

theorem find_row (keyed : Keyed t.nodes) (present : (place, p, node) ∈ t.nodes) :
    t.find? p = some node := by
  have placed : place = p.place := keyed.placed _ present
  subst placed
  rw [find?, lookup_row keyed.single present]
  rfl

theorem row_of_find (keyed : Keyed t.nodes) (found : t.find? p = some node) :
    ∃ q, q.same p ∧ (q.place, q, node) ∈ t.nodes := by
  obtain ⟨⟨q, held⟩, looked, rfl⟩ := Option.map_eq_some_iff.mp found
  have present := row_of_lookup looked
  have placed : p.place = q.place := keyed.placed _ present
  exact ⟨q, Path.place_same.mp placed.symm, by rwa [placed] at present⟩

theorem find_same (met : p.same q) : t.find? p = t.find? q := by
  rw [find?, find?, Path.place_same.mpr met]

theorem mem_childrenOf (keyed : Keyed t.nodes) (p dir : Path) (node : Node) :
    (p, node) ∈ t.childrenOf dir ↔
      (p.place, p, node) ∈ t.nodes ∧ ∃ r, p.parent? = some r ∧ r.same dir := by
  simp only [childrenOf, List.mem_map, List.mem_filter, beq_iff_eq, Prod.exists, Prod.mk.injEq]
  constructor
  · intro held
    obtain ⟨place, q, held, ⟨present, child⟩, rfl, rfl⟩ := held
    have placed : place = q.place := keyed.placed _ present
    subst placed
    exact ⟨present, Path.above_child.mp child⟩
  · intro held
    obtain ⟨present, child⟩ := held
    exact ⟨p.place, p, node, ⟨present, Path.above_child.mpr child⟩, rfl, rfl⟩

theorem childrenOf_apart (keyed : Keyed t.nodes) (dir : Path) :
    (t.childrenOf dir).Pairwise fun a b => ¬a.1.same b.1 := by
  have apart : t.nodes.Pairwise fun a b => ¬a.2.1.same b.2.1 := by
    refine (List.pairwise_map.mp keyed.single).imp_of_mem ?_
    intro a b first second different met
    apply different
    rw [keyed.placed a first, keyed.placed b second, Path.place_same.mpr met]
  exact List.pairwise_map.mpr (apart.filter _)

theorem list_refused (refused : t.refusing.any (·.same dir) = true) :
    t.list dir = .error denied := by
  rw [list, if_pos refused]

theorem list_willing (willing : ¬t.refusing.any (·.same dir) = true) :
    t.list dir =
      match t.find? dir with
      | some .directory => .ok ((t.childrenOf dir).map fun (p, node) => ⟨p, node.kind⟩)
      | some _ => .error ⟨.other, "not a directory"⟩
      | none => .error (.ofKind .notFound) := by
  rw [list]
  exact if_neg willing

theorem list_listed (listed : t.list dir = .ok entries) :
    t.find? dir = some .directory ∧
      entries = (t.childrenOf dir).map fun (p, node) => ⟨p, node.kind⟩ := by
  unfold list at listed
  split at listed
  · cases listed
  · split at listed
    · rename_i found
      cases Except.ok.inj listed
      exact ⟨found, rfl⟩
    · cases listed
    · cases listed

theorem list_entries (keyed : Keyed t.nodes) (listed : t.list dir = .ok entries) :
    (entries.Pairwise fun a b => ¬a.path.same b.path) ∧
      ∀ p kind, (∃ e ∈ entries, e.path.same p ∧ e.kind = kind) ↔
        (∃ node, t.find? p = some node ∧ node.kind = kind) ∧
          ∃ above, p.parent? = some above ∧ above.same dir := by
  obtain ⟨-, rfl⟩ := list_listed listed
  refine ⟨List.pairwise_map.mpr (childrenOf_apart keyed dir), ?_⟩
  intro p kind
  constructor
  · intro held
    obtain ⟨e, present, met, rfl⟩ := held
    obtain ⟨⟨q, node⟩, child, rfl⟩ := List.mem_map.mp present
    obtain ⟨row, below⟩ := (mem_childrenOf keyed q dir node).mp child
    exact ⟨⟨node, (find_same met).symm.trans (find_row keyed row), rfl⟩,
      Path.child_respell met below⟩
  · intro held
    obtain ⟨⟨node, found, rfl⟩, below⟩ := held
    obtain ⟨q, met, row⟩ := row_of_find keyed found
    have child := Path.child_respell (Path.same_symm met) below
    exact ⟨⟨q, node.kind⟩, List.mem_map.mpr
      ⟨(q, node), (mem_childrenOf keyed q dir node).mpr ⟨row, child⟩, rfl⟩, met, rfl⟩

structure ListsBy (t : MemoryTree) (barred : Path → Prop) (dir : Path) : Prop where
  denied : t.list dir = .error denied ↔ barred dir
  absent : ¬barred dir → (t.list dir = .error (.ofKind .notFound) ↔ t.find? dir = none)
  notDirectory : ¬barred dir → (t.list dir = .error ⟨.other, "not a directory"⟩ ↔
    ∃ node, t.find? dir = some node ∧ node ≠ .directory)
  listed : ¬barred dir → t.find? dir = some .directory →
    ∃ entries, t.list dir = .ok entries ∧ (entries.Pairwise fun a b => ¬a.path.same b.path) ∧
      ∀ p kind, (∃ e ∈ entries, e.path.same p ∧ e.kind = kind) ↔
        (∃ node, t.find? p = some node ∧ node.kind = kind) ∧
          ∃ above, p.parent? = some above ∧ above.same dir

structure ReadsBy (t : MemoryTree) (p : Path) : Prop where
  content : ∀ bytes, t.read p = .ok bytes ↔ t.find? p = some (.file bytes)
  denied : t.read p = .error denied ↔ t.find? p = some .unreadable
  notFile : t.read p = .error ⟨.other, "not a file"⟩ ↔
    t.find? p = some .directory ∨ t.find? p = some .link
  absent : t.read p = .error (.ofKind .notFound) ↔ t.find? p = none

theorem build_lists (steps : List Step) (dir : Path) :
    ListsBy (build steps) (Refused steps) dir := by
  have keyed := build_keyed steps
  have refusing := build_refusing steps dir
  generalize build steps = t at keyed refusing
  by_cases refused : Refused steps dir
  · have answer := list_refused (refusing.mpr refused)
    exact ⟨by simp [answer, refused], absurd refused, absurd refused, absurd refused⟩
  · have answer := list_willing fun found => refused (refusing.mp found)
    cases found : t.find? dir with
    | none =>
      rw [found] at answer
      constructor <;> simp [answer, found, refused, denied, IoError.ofKind]
    | some node =>
      rw [found] at answer
      by_cases directory : node = .directory
      · subst directory
        refine ⟨by simp [answer, refused], by simp [answer, found], by simp [answer, found], ?_⟩
        exact fun _ _ => ⟨_, answer, list_entries keyed answer⟩
      · have wrong : t.list dir = .error ⟨.other, "not a directory"⟩ := by
          cases node with
          | directory => exact absurd rfl directory
          | file content => exact answer
          | unreadable => exact answer
          | link => exact answer
        constructor <;> simp [wrong, found, refused, directory, denied, IoError.ofKind]

theorem read_exact (t : MemoryTree) (p : Path) : ReadsBy t p := by
  cases found : t.find? p with
  | none => constructor <;> simp [read, found, denied, IoError.ofKind]
  | some node =>
    cases node <;> constructor <;> simp [read, found, denied, IoError.ofKind]

theorem file_kind : node.kind = .file ↔ (∃ bytes, node = .file bytes) ∨ node = .unreadable := by
  cases node <;> simp [Node.kind]

theorem directory_kind : node.kind = .directory ↔ node = .directory := by
  cases node <;> simp [Node.kind]

-- No entry is stale: what is listed as a file can be read and what is listed as a directory
-- can be listed, unless that is denied.
theorem entry_answers (keyed : Keyed t.nodes) (listed : t.list dir = .ok entries)
    (present : e ∈ entries) :
    (e.kind = .file → (∃ bytes, t.read e.path = .ok bytes) ∨ t.read e.path = .error denied) ∧
      (e.kind = .directory → (∃ inside, t.list e.path = .ok inside) ∨
        t.list e.path = .error denied) := by
  obtain ⟨⟨node, found, kind⟩, -⟩ :=
    ((list_entries keyed listed).2 e.path e.kind).mp ⟨e, present, Path.same_refl _, rfl⟩
  have reads := read_exact t e.path
  constructor
  · intro file
    rcases file_kind.mp (kind.trans file) with written | unreadable
    · obtain ⟨bytes, rfl⟩ := written
      exact .inl ⟨bytes, (reads.content bytes).mpr found⟩
    · rw [unreadable] at found
      exact .inr (reads.denied.mpr found)
  · intro directory
    rw [directory_kind.mp (kind.trans directory)] at found
    by_cases refused : t.refusing.any (·.same e.path) = true
    · exact .inr (list_refused refused)
    · exact .inl ⟨_, by rw [list_willing refused, found]⟩

-- The state of a tree after any run of steps, and all it answers.
theorem build_answers (steps : List Step) :
    (∀ p node, (build steps).find? p = some node ↔ Decided steps p node) ∧
      (∀ p, (build steps).find? p = none ↔ ∀ s ∈ steps, ¬s.Concerns p) ∧
      (∀ dir, ListsBy (build steps) (Refused steps) dir) ∧
      (∀ p, ReadsBy (build steps) p) ∧
      ∀ dir entries, (build steps).list dir = .ok entries → ∀ e ∈ entries,
        (e.kind = .file → (∃ bytes, (build steps).read e.path = .ok bytes) ∨
          (build steps).read e.path = .error denied) ∧
        (e.kind = .directory → (∃ inside, (build steps).list e.path = .ok inside) ∨
          (build steps).list e.path = .error denied) :=
  ⟨build_found steps, build_absent steps, build_lists steps, read_exact _,
    fun _ _ listed _ present => entry_answers (build_keyed steps) listed present⟩

end ChapterCheck.MemoryTree
