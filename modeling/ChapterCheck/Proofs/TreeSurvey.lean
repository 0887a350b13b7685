import ChapterCheck.Proofs.PathAncestry
import ChapterCheck.Survey

namespace ChapterCheck

theorem mapM_done {xs : List α} {f : α → Except ε β} {g : α → β} (done : ∀ x ∈ xs, f x = .ok (g x)) :
    xs.mapM f = .ok (xs.map g) := by
  induction xs with
  | nil => rfl
  | cons x rest ih =>
    have tail := ih fun y present => done y (List.mem_cons_of_mem _ present)
    rw [List.mapM_cons, done x List.mem_cons_self, tail]
    rfl

theorem mapM_cases (f : α → Except ε β) (xs : List α) :
    (∃ x ∈ xs, ∃ e, f x = .error e ∧ xs.mapM f = .error e) ∨ ∀ x ∈ xs, ∃ y, f x = .ok y := by
  induction xs with
  | nil => exact .inr (by simp)
  | cons x rest ih =>
    rw [List.mapM_cons]
    cases first : f x with
    | error e => exact .inl ⟨x, List.mem_cons_self, e, first, rfl⟩
    | ok y =>
      rcases ih with failed | done
      · obtain ⟨z, present, e, stopped, whole⟩ := failed
        exact .inl ⟨z, List.mem_cons_of_mem _ present, e, stopped, by rw [whole]; rfl⟩
      · exact .inr fun z present => by
          rcases List.mem_cons.mp present with rfl | later
          · exact ⟨y, first⟩
          · exact done z later

theorem mapM_map (f : α → Except ε β) (g : β → γ) (xs : List α) :
    xs.mapM (fun x => (f x).map g) = (xs.mapM f).map (List.map g) := by
  induction xs with
  | nil => rfl
  | cons x rest ih =>
    rw [List.mapM_cons, List.mapM_cons, ih]
    cases f x with
    | error e => rfl
    | ok y => cases rest.mapM f <;> rfl

theorem mapM_congr {f g : α → Except ε β} {xs : List α} (same : ∀ x ∈ xs, f x = g x) :
    xs.mapM f = xs.mapM g := by
  induction xs with
  | nil => rfl
  | cons x rest ih =>
    have tail := ih fun y later => same y (List.mem_cons_of_mem _ later)
    rw [List.mapM_cons, List.mapM_cons, same x List.mem_cons_self, tail]

namespace ContentTree

-- The directories met on the way down, the one at the start among them.
inductive Reaches (tree : ContentTree) (root : Path) : Path → Prop where
  | start : Reaches tree root root
  | down (met : Reaches tree root d) (listed : tree.list d = .ok entries) (present : e ∈ entries)
      (inner : e.kind = .directory) : Reaches tree root e.path

inductive FiniteBelow (tree : ContentTree) : Path → Prop where
  | closed (failed : tree.list dir = .error cause) : FiniteBelow tree dir
  | opened (listed : tree.list dir = .ok entries)
      (inside : ∀ e ∈ entries, e.kind = .directory → FiniteBelow tree e.path) : FiniteBelow tree dir

variable {tree : ContentTree} {root dir d : Path} {entries : List Entry} {e : Entry}

theorem Reaches.trans (first : tree.Reaches root dir) (second : tree.Reaches dir d) :
    tree.Reaches root d := by
  induction second with
  | start => exact first
  | down _ listed present inner ih => exact .down ih listed present inner

theorem Reaches.inside (listed : tree.list dir = .ok entries) (present : e ∈ entries)
    (inner : e.kind = .directory) (below : tree.Reaches e.path d) : tree.Reaches dir d :=
  Reaches.trans (.down .start listed present inner) below

theorem Reaches.split (reached : tree.Reaches dir d) :
    d = dir ∨ ∃ entries e, tree.list dir = .ok entries ∧ e ∈ entries ∧ e.kind = .directory ∧
      tree.Reaches e.path d := by
  induction reached with
  | start => exact .inl rfl
  | down _ listed present inner ih =>
    rcases ih with equal | within
    · rw [equal] at listed
      exact .inr ⟨_, _, listed, present, inner, .start⟩
    · obtain ⟨first, x, opened, found, directory, below⟩ := within
      exact .inr ⟨first, x, opened, found, directory, .down below listed present inner⟩

theorem Reaches.through (listed : tree.list dir = .ok entries) (reached : tree.Reaches dir d) :
    d = dir ∨ ∃ e ∈ entries, e.kind = .directory ∧ tree.Reaches e.path d := by
  rcases reached.split with equal | within
  · exact .inl equal
  · obtain ⟨first, e, again, present, inner, below⟩ := within
    rw [listed] at again
    cases again
    exact .inr ⟨e, present, inner, below⟩

theorem Reaches.last (reached : tree.Reaches dir d) :
    d = dir ∨ ∃ c entries e, tree.Reaches dir c ∧ tree.list c = .ok entries ∧ e ∈ entries ∧
      e.kind = .directory ∧ e.path = d := by
  cases reached with
  | start => exact .inl rfl
  | down met listed present inner => exact .inr ⟨_, _, _, met, listed, present, inner, rfl⟩

theorem mem_directoriesOf : d ∈ directoriesOf entries ↔
    ∃ e ∈ entries, e.kind = .directory ∧ e.path = d := by
  simp [directoriesOf, and_assoc]

-- A walk through a finite tree never comes to a directory that it stands in already, so
-- its own equation holds of it.

theorem finite_accessible (finite : tree.FiniteBelow dir) : Acc tree.Inside dir := by
  induction finite with
  | closed failed =>
    constructor
    intro d inside
    obtain ⟨entries, listed, -⟩ := inside
    rw [failed] at listed
    cases listed
  | opened listed _ ih =>
    constructor
    intro d inside
    obtain ⟨entries, again, present⟩ := inside
    rw [listed] at again
    cases again
    obtain ⟨e, found, inner, rfl⟩ := mem_directoriesOf.mp present
    exact ih e found inner

theorem survey_closed (failed : tree.list dir = .error cause) :
    tree.survey dir = .error (.unlistable dir cause) := by
  have unrolled : tree.survey dir = _ :=
    WellFounded.partialExtrinsicFix_eq_apply_of_acc (finite_accessible (.closed failed))
  rw [unrolled]
  split
  · rename_i held
    rw [failed] at held
    cases held
    rfl
  · rename_i held
    rw [failed] at held
    cases held

theorem survey_opened (listed : tree.list dir = .ok entries)
    (inside : ∀ e ∈ entries, e.kind = .directory → tree.FiniteBelow e.path) :
    tree.survey dir = ((directoriesOf entries).mapM tree.survey).map
      fun inside => ⟨dir, entries⟩ :: inside.flatten := by
  have unrolled : tree.survey dir = _ :=
    WellFounded.partialExtrinsicFix_eq_apply_of_acc (finite_accessible (.opened listed inside))
  have attached : (directoriesOf entries).attach.mapM (fun d => tree.survey d.1) =
      (directoriesOf entries).mapM tree.survey := by
    rw [List.mapM_subtype fun _ _ => rfl, List.unattach_attach]
  rw [unrolled, ← attached]
  split
  · rename_i held
    rw [listed] at held
    cases held
  · rename_i held
    rw [listed] at held
    cases held
    rfl

def found (tree : ContentTree) (dir : Path) : List Listing := (tree.survey dir).toOption.getD []

theorem survey_found (surveyed : tree.survey dir = .ok listings) : tree.found dir = listings := by
  rw [found, surveyed]
  rfl

theorem survey_cases (listed : tree.list dir = .ok entries)
    (inside : ∀ e ∈ entries, e.kind = .directory → tree.FiniteBelow e.path) :
    (∃ e ∈ entries, e.kind = .directory ∧ ∃ failure, tree.survey e.path = .error failure ∧
        tree.survey dir = .error failure) ∨
      (∀ e ∈ entries, e.kind = .directory → tree.survey e.path = .ok (tree.found e.path)) ∧
        tree.survey dir =
          .ok (⟨dir, entries⟩ :: (directoriesOf entries).flatMap tree.found) := by
  rw [survey_opened listed inside]
  rcases mapM_cases tree.survey (directoriesOf entries) with failed | done
  · obtain ⟨d, present, failure, stopped, whole⟩ := failed
    obtain ⟨e, met, inner, rfl⟩ := mem_directoriesOf.mp present
    exact .inl ⟨e, met, inner, failure, stopped, by rw [whole]; rfl⟩
  · have all : ∀ d ∈ directoriesOf entries, tree.survey d = .ok (tree.found d) := by
      intro d present
      obtain ⟨listings, surveyed⟩ := done d present
      rw [survey_found surveyed, surveyed]
    refine .inr ⟨?_, ?_⟩
    · intro e present inner
      exact all e.path (mem_directoriesOf.mpr ⟨e, present, inner, rfl⟩)
    · rw [mapM_done all, Except.map, List.flatMap]

theorem survey_failed {failure : Failure} (finite : tree.FiniteBelow dir)
    (failed : tree.survey dir = .error failure) :
    ∃ d cause, failure = .unlistable d cause ∧ tree.Reaches dir d ∧ tree.list d = .error cause := by
  induction finite with
  | @closed dir cause closed =>
    rw [survey_closed closed] at failed
    cases failed
    exact ⟨dir, cause, rfl, .start, closed⟩
  | @opened dir entries listed inside ih =>
    rcases survey_cases listed inside with stopped | done
    · obtain ⟨e, present, inner, failure', within, whole⟩ := stopped
      rw [whole] at failed
      cases failed
      obtain ⟨d, cause, rfl, reached, closed⟩ := ih e present inner within
      exact ⟨d, cause, rfl, .inside listed present inner reached, closed⟩
    · rw [done.2] at failed
      cases failed

theorem survey_parts (listed : tree.list dir = .ok entries)
    (inside : ∀ e ∈ entries, e.kind = .directory → tree.FiniteBelow e.path)
    (surveyed : tree.survey dir = .ok listings) :
    (∀ e ∈ entries, e.kind = .directory → tree.survey e.path = .ok (tree.found e.path)) ∧
      listings = ⟨dir, entries⟩ :: (directoriesOf entries).flatMap tree.found := by
  rcases survey_cases listed inside with stopped | done
  · obtain ⟨e, present, inner, failure, within, whole⟩ := stopped
    rw [whole] at surveyed
    cases surveyed
  · obtain ⟨parts, whole⟩ := done
    rw [whole] at surveyed
    cases surveyed
    exact ⟨parts, rfl⟩

theorem survey_listings (finite : tree.FiniteBelow dir) (surveyed : tree.survey dir = .ok listings) :
    ∀ l, l ∈ listings ↔ tree.Reaches dir l.directory ∧ tree.list l.directory = .ok l.entries := by
  induction finite generalizing listings with
  | closed closed =>
    rw [survey_closed closed] at surveyed
    cases surveyed
  | @opened dir entries listed inside ih =>
    obtain ⟨parts, rfl⟩ := survey_parts listed inside surveyed
    intro l
    simp only [List.mem_cons, List.mem_flatMap]
    constructor
    · intro present
      rcases present with rfl | within
      · exact ⟨.start, listed⟩
      · obtain ⟨d, directory, deep⟩ := within
        obtain ⟨e, present, inner, rfl⟩ := mem_directoriesOf.mp directory
        obtain ⟨reached, opened⟩ := (ih e present inner (parts e present inner) l).mp deep
        exact ⟨.inside listed present inner reached, opened⟩
    · intro met
      obtain ⟨reached, opened⟩ := met
      rcases reached.through listed with equal | within
      · rw [equal, listed] at opened
        left
        cases l
        simp_all
      · obtain ⟨e, present, inner, below⟩ := within
        exact .inr ⟨e.path, mem_directoriesOf.mpr ⟨e, present, inner, rfl⟩,
          (ih e present inner (parts e present inner) l).mpr ⟨below, opened⟩⟩

theorem survey_reached (finite : tree.FiniteBelow dir) (surveyed : tree.survey dir = .ok listings)
    (reached : tree.Reaches dir d) : ∃ entries, tree.list d = .ok entries := by
  induction finite generalizing listings with
  | closed closed =>
    rw [survey_closed closed] at surveyed
    cases surveyed
  | @opened dir entries listed inside ih =>
    obtain ⟨parts, -⟩ := survey_parts listed inside surveyed
    rcases reached.through listed with equal | within
    · rw [equal]
      exact ⟨entries, listed⟩
    · obtain ⟨e, present, inner, below⟩ := within
      exact ih e present inner (parts e present inner) below

theorem survey_total (finite : tree.FiniteBelow dir)
    (lists : ∀ d, tree.Reaches dir d → ∃ entries, tree.list d = .ok entries) :
    ∃ listings, tree.survey dir = .ok listings := by
  cases surveyed : tree.survey dir with
  | ok listings => exact ⟨listings, rfl⟩
  | error failure =>
    obtain ⟨d, cause, -, reached, closed⟩ := survey_failed finite surveyed
    obtain ⟨entries, listed⟩ := lists d reached
    rw [listed] at closed
    cases closed

-- In a finite tree no way down comes back.
theorem acyclic (finite : tree.FiniteBelow dir) (listed : tree.list dir = .ok entries)
    (present : e ∈ entries) (inner : e.kind = .directory) : ¬tree.Reaches e.path dir := by
  induction finite generalizing entries e with
  | closed failed =>
    rw [failed] at listed
    cases listed
  | @opened dir entries' opened inside ih =>
    rw [opened] at listed
    cases listed
    intro back
    rcases back.split with equal | within
    · exact ih e present inner (equal ▸ opened) present inner (equal ▸ .start)
    · obtain ⟨first, x, again, found, directory, below⟩ := within
      exact ih e present inner again found directory (.down below opened present inner)

-- No path is listed twice, neither in one listing nor in two.
structure ListsOnce (tree : ContentTree) (root : Path) : Prop where
  within : ∀ d entries, tree.Reaches root d → tree.list d = .ok entries →
    entries.Pairwise fun a b => ¬a.path.same b.path
  across : ∀ d d' entries entries', tree.Reaches root d → tree.Reaches root d' → d ≠ d' →
    tree.list d = .ok entries → tree.list d' = .ok entries' →
    ∀ a ∈ entries, ∀ b ∈ entries', ¬a.path.same b.path

theorem ListsOnce.below (once : tree.ListsOnce root) (reached : tree.Reaches root dir) :
    tree.ListsOnce dir :=
  ⟨fun d entries met => once.within d entries (reached.trans met),
    fun d d' entries entries' met met' =>
      once.across d d' entries entries' (reached.trans met) (reached.trans met')⟩

-- Where nothing is listed twice, a listed path tells the directory that lists it.
theorem ListsOnce.home (once : tree.ListsOnce root) (reached : tree.Reaches root dir)
    (met : tree.Reaches root d) (listed : tree.list dir = .ok entries)
    (listed' : tree.list d = .ok entries') (present : e ∈ entries) (present' : e' ∈ entries')
    (equal : e.path = e'.path) : dir = d := by
  by_contra different
  refine once.across dir d _ _ reached met different listed listed' e present e' present' ?_
  rw [equal]
  exact Path.same_refl _

theorem separated (finite : tree.FiniteBelow dir) (once : tree.ListsOnce dir)
    (listed : tree.list dir = .ok entries) (first : x ∈ entries) (second : y ∈ entries)
    (inner : x.kind = .directory) (inner' : y.kind = .directory) (different : x.path ≠ y.path)
    (left : tree.Reaches x.path d) (right : tree.Reaches y.path d) : False := by
  have inside : ∀ {z c}, z ∈ entries → z.kind = .directory → tree.Reaches z.path c →
      tree.Reaches dir c := fun present directory => .inside listed present directory
  -- Two ways to one directory end in one listing, so both can be followed up at once.
  induction left with
  | start =>
    rcases right.last with equal | deeper
    · exact different equal
    · obtain ⟨c, _, z, met, opened, present, -, equal⟩ := deeper
      have home := once.home .start (inside second inner' met) listed opened first present equal.symm
      exact acyclic finite listed second inner' (home ▸ met)
  | @down c _ z met opened present directory ih =>
    rcases right.last with equal | deeper
    · have home := once.home .start (inside first inner met) listed opened second present equal.symm
      exact acyclic finite listed first inner (home ▸ met)
    · obtain ⟨c', _, z', met', opened', present', -, equal⟩ := deeper
      have home := once.home (inside first inner met) (inside second inner' met') opened opened'
        present present' equal.symm
      exact ih (home ▸ met')

def entriesOf (listings : List Listing) : List Entry := listings.flatMap Listing.entries

theorem entriesOf_cons (l : Listing) (listings : List Listing) :
    entriesOf (l :: listings) = l.entries ++ entriesOf listings := rfl

theorem entriesOf_flatMap (dirs : List Path) (f : Path → List Listing) :
    entriesOf (dirs.flatMap f) = dirs.flatMap fun d => entriesOf (f d) := by
  simp [entriesOf, List.flatMap_assoc]

theorem mem_entriesOf (finite : tree.FiniteBelow dir) (surveyed : tree.survey dir = .ok listings) :
    e ∈ entriesOf listings ↔
      ∃ d entries, tree.Reaches dir d ∧ tree.list d = .ok entries ∧ e ∈ entries := by
  simp only [entriesOf, List.mem_flatMap]
  constructor
  · intro held
    obtain ⟨l, present, inside⟩ := held
    obtain ⟨reached, listed⟩ := (survey_listings finite surveyed l).mp present
    exact ⟨l.directory, l.entries, reached, listed, inside⟩
  · intro met
    obtain ⟨d, entries, reached, listed, inside⟩ := met
    exact ⟨⟨d, entries⟩, (survey_listings finite surveyed _).mpr ⟨reached, listed⟩, inside⟩

theorem apart_below (finite : tree.FiniteBelow dir) (once : tree.ListsOnce dir)
    (listed : tree.list dir = .ok entries) (first : x ∈ entries) (second : y ∈ entries)
    (inner : x.kind = .directory) (inner' : y.kind = .directory) (apart : ¬x.path.same y.path)
    (left : tree.Reaches x.path d) (right : tree.Reaches y.path d')
    (opened : tree.list d = .ok held) (opened' : tree.list d' = .ok held')
    (present : a ∈ held) (present' : b ∈ held') : ¬a.path.same b.path := by
  have different : x.path ≠ y.path := by
    intro equal
    rw [equal] at apart
    exact apart (Path.same_refl _)
  have home : d ≠ d' := by
    intro equal
    subst equal
    exact separated finite once listed first second inner inner' different left right
  exact once.across d d' held held' (.inside listed first inner left)
    (.inside listed second inner' right) home opened opened' a present b present'

theorem apart_beside (finite : tree.FiniteBelow dir) (once : tree.ListsOnce dir)
    (listed : tree.list dir = .ok entries) (here : a ∈ entries) (first : x ∈ entries)
    (inner : x.kind = .directory) (reached : tree.Reaches x.path d)
    (opened : tree.list d = .ok held) (present : b ∈ held) : ¬a.path.same b.path := by
  have away : dir ≠ d := by
    intro equal
    subst equal
    exact acyclic finite listed first inner reached
  exact once.across dir d entries held .start (.inside listed first inner reached) away listed
    opened a here b present

theorem survey_once (finite : tree.FiniteBelow dir) (once : tree.ListsOnce dir)
    (surveyed : tree.survey dir = .ok listings) :
    (entriesOf listings).Pairwise fun a b => ¬a.path.same b.path := by
  have whole := finite
  induction finite generalizing listings with
  | closed closed =>
    rw [survey_closed closed] at surveyed
    cases surveyed
  | @opened dir entries listed inside ih =>
    obtain ⟨parts, rfl⟩ := survey_parts listed inside surveyed
    have own := once.within dir entries .start listed
    have under : ∀ x ∈ entries, x.kind = .directory → ∀ b ∈ entriesOf (tree.found x.path),
        ∃ d held, tree.Reaches x.path d ∧ tree.list d = .ok held ∧ b ∈ held :=
      fun x present inner b => (mem_entriesOf (inside x present inner) (parts x present inner)).mp
    rw [entriesOf_cons, entriesOf_flatMap, List.pairwise_append, List.pairwise_flatMap]
    refine ⟨own, ⟨?_, ?_⟩, ?_⟩
    · intro d directory
      obtain ⟨e, present, inner, rfl⟩ := mem_directoriesOf.mp directory
      exact ih e present inner (once.below (.inside listed present inner .start))
        (parts e present inner) (inside e present inner)
    · refine List.pairwise_map.mpr ((own.filter _).imp_of_mem ?_)
      intro x y first second apart a left b right
      obtain ⟨first, directory⟩ := List.mem_filter.mp first
      obtain ⟨second, directory'⟩ := List.mem_filter.mp second
      have inner := of_decide_eq_true directory
      have inner' := of_decide_eq_true directory'
      obtain ⟨d, held, reached, opened, inD⟩ := under x first inner a left
      obtain ⟨d', held', reached', opened', inD'⟩ := under y second inner' b right
      exact apart_below whole once listed first second inner inner' apart reached reached' opened
        opened' inD inD'
    · intro a here b deep
      obtain ⟨d, directory, right⟩ := List.mem_flatMap.mp deep
      obtain ⟨x, present, inner, rfl⟩ := mem_directoriesOf.mp directory
      obtain ⟨d, held, reached, opened, inD⟩ := under x present inner b right
      exact apart_beside whole once listed here present inner reached opened inD

end ContentTree
end ChapterCheck
