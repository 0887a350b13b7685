import ChapterCheck.Proofs.Discovery

namespace ChapterCheck

theorem Path.Below.apart {p q : Path} (below : p.Below q) : ¬p.same q := by
  intro met
  have longer := below.longer
  rw [same_exact.mp met] at longer
  exact Nat.lt_irrefl _ longer

namespace ContentTree

def ListsChildren (tree : ContentTree) (root : Path) : Prop :=
  ∀ d entries, tree.Reaches root d → tree.list d = .ok entries →
    ∀ e ∈ entries, ∃ r, e.path.parent? = some r ∧ r.same d

def ListsApart (tree : ContentTree) (root : Path) : Prop :=
  ∀ d entries, tree.Reaches root d → tree.list d = .ok entries →
    entries.Pairwise fun a b => ¬a.path.same b.path

variable {tree : ContentTree} {root d d' : Path} {entries : List Entry} {e e' : Entry}

theorem entry_below (children : tree.ListsChildren root) (listed : tree.list d = .ok entries)
    (reached : tree.Reaches root d) (present : e ∈ entries) (lower : d = root ∨ d.Below root) :
    e.path.Below root := by
  obtain ⟨r, above, met⟩ := children d entries reached listed e present
  rcases lower with rfl | below
  · exact .direct above met
  · exact .further above (below.respell (Path.same_symm met) (Path.same_refl root))

theorem reached_below (children : tree.ListsChildren root) (reached : tree.Reaches root d) :
    d = root ∨ d.Below root := by
  induction reached with
  | start => exact .inl rfl
  | down met listed present _ ih => exact .inr (entry_below children listed met present ih)

theorem document_below (children : tree.ListsChildren root)
    (document : tree.IsDocument root extension p) : p.Below root := by
  obtain ⟨d, entries, reached, listed, present, -⟩ := document
  exact entry_below children listed reached present (reached_below children reached)

theorem home_same (children : tree.ListsChildren root) (reached : tree.Reaches root d)
    (reached' : tree.Reaches root d') (listed : tree.list d = .ok entries)
    (listed' : tree.list d' = .ok entries') (present : e ∈ entries) (present' : e' ∈ entries')
    (met : e.path.same e'.path) : d.same d' := by
  have above := children d entries reached listed e present
  obtain ⟨r, parent, into⟩ := children d' entries' reached' listed' e' present'
  obtain ⟨s, again, upon⟩ := Path.child_respell met above
  rw [parent] at again
  cases again
  exact Path.same_trans (Path.same_symm upon) into

theorem reached_same (children : tree.ListsChildren root) (apart : tree.ListsApart root)
    (reached : tree.Reaches root d) (reached' : tree.Reaches root d') (met : d.same d') :
    d = d' := by
  induction reached generalizing d' with
  | start =>
    rcases reached_below children reached' with equal | below
    · exact equal.symm
    · exact absurd (Path.same_symm met) below.apart
  | @down c entries e before listed present inner ih =>
    rcases reached'.last with rfl | deeper
    · have lower := entry_below children listed before present (reached_below children before)
      exact absurd met lower.apart
    · obtain ⟨c', entries', e', before', listed', present', -, rfl⟩ := deeper
      have home := home_same children before before' listed listed' present present' met
      obtain rfl : c = c' := ih before' home
      rw [listed] at listed'
      cases listed'
      have paths : (entries.map Entry.path).Pairwise fun p q => ¬p.same q :=
        List.pairwise_map.mpr (apart c entries before listed)
      exact Path.apart_equal paths (List.mem_map_of_mem present) (List.mem_map_of_mem present') met

-- Where directories list their own children, each once, nothing is listed twice at all.
theorem ListsChildren.once (children : tree.ListsChildren root) (apart : tree.ListsApart root) :
    tree.ListsOnce root := by
  refine ⟨apart, ?_⟩
  intro d d' entries entries' reached reached' different listed listed' a first b second met
  have home := home_same children reached reached' listed listed' first second met
  exact different (reached_same children apart reached reached' home)

end ContentTree
end ChapterCheck
