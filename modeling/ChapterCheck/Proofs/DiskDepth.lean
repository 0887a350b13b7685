import ChapterCheck.Disk
import ChapterCheck.Proofs.Discovery

namespace ChapterCheck.Disk

variable {d d' : Disk} {place place' : Place Name} {name : Name} {p : Path}

def Plain (name : Name) : Prop := name ≠ [] ∧ Path.slash ∉ name

def Named (d : Disk) : Prop :=
  ∀ q node own above, (q, node) ∈ d.nodes → q.names = own :: above → Plain own

theorem set_named (named : d.Named) (plain : Plain name) (node : Node) :
    (d.set (place.below name) node).Named := by
  intro q other own above present names
  rcases List.mem_cons.mp present with equal | older
  · cases equal
    cases names
    exact plain
  · exact named q other own above (List.mem_filter.mp older).1 names

theorem erase_named (named : d.Named) (place : Place Name) : (d.erase place).Named :=
  fun q node own above present => named q node own above (List.mem_filter.mp present).1

theorem part_plain {part : List UInt8} (busy : Path.idle part = false)
    (clear : Path.slash ∉ part) : Plain part := by
  refine ⟨?_, clear⟩
  rintro rfl
  cases busy

theorem fileName_plain (last : p.fileName? = some name) : Plain name := by
  have present := List.mem_of_getLast? (Path.fileName_exact.mp last)
  rcases List.mem_append.mp present with head | part
  · have other : ∀ c ∈ p.head?.toList, c = .root ∨ c = .here := by
      intro c first
      unfold Path.head? at first
      grind
    rcases other _ head with equal | equal <;> cases equal
  · obtain ⟨part, kept, equal⟩ := List.mem_map.mp part
    obtain ⟨held, busy⟩ := List.mem_filter.mp kept
    have own : part = name := by
      unfold Path.componentOf at equal
      split at equal <;> cases equal
      rfl
    exact own ▸ part_plain (by simpa using busy) (Path.splitSlash_clear _ part held)

theorem makeDirectories_named {parts : List (List UInt8)} (named : d.Named)
    (clear : ∀ part ∈ parts, Path.slash ∉ part)
    (made : d.makeDirectories place parts = .ok (d', place')) : d'.Named := by
  induction parts generalizing d place with
  | nil =>
    cases made
    exact named
  | cons part rest ih =>
    have later : ∀ part ∈ rest, Path.slash ∉ part :=
      fun part present => clear part (.tail _ present)
    rw [makeDirectories] at made
    split at made
    · exact ih named later made
    split at made
    · rename_i busy _
      have plain := part_plain (by simpa using busy) (clear part (.head _))
      exact ih (set_named named plain .directory) later made
    split at made
    · cases made
    split at made
    · exact ih named later made
    · cases made

theorem write_named {content : List UInt8} {links : Nat} (named : d.Named) (plain : Plain name)
    (written : d.write content links place name = .ok d') : d'.Named := by
  fun_induction write d content links place name with
  | case1 links place name _ =>
    cases written
    exact set_named named plain _
  | case2 links place name _ _ =>
    cases written
    exact set_named named plain _
  | case6 _ _ _ _ _ _ _ last _ _ _ ih => exact ih (fileName_plain last) written
  | _ => cases written

theorem bind_done {first : Except IoError α} {next : α → Except IoError β}
    (done : (first >>= next) = .ok b) : ∃ a, first = .ok a ∧ next a = .ok b := by
  cases first with
  | error cause => cases done
  | ok a => exact ⟨a, rfl, done⟩

theorem prepare_named (named : d.Named) (made : d.prepare p = .ok (d', place, name)) :
    d'.Named ∧ Plain name := by
  unfold prepare at made
  split at made
  · rename_i last
    obtain ⟨⟨inside, place⟩, directories, rest⟩ := bind_done made
    cases rest
    exact ⟨makeDirectories_named named (Path.splitSlash_clear _) directories, fileName_plain last⟩
  · cases made

theorem addNew_named {node : Node} (named : d.Named) (added : d.addNew p node = .ok d') :
    d'.Named := by
  obtain ⟨⟨inside, place, name⟩, prepared, rest⟩ := bind_done added
  obtain ⟨held, plain⟩ := prepare_named named prepared
  dsimp only at rest
  split at rest
  · cases rest
  · cases rest
    exact set_named held plain node

theorem remove_named (named : d.Named) (removed : d.remove p = .ok d') : d'.Named := by
  unfold remove at removed
  split at removed
  · obtain ⟨place, -, rest⟩ := bind_done removed
    split at rest
    · cases rest
      exact erase_named named _
    · cases rest
  · cases removed

theorem apply_named {s : Step} (named : d.Named) (done : d.apply s = .ok d') : d'.Named := by
  cases s with
  | file p content =>
    obtain ⟨⟨inside, place, name⟩, prepared, written⟩ := bind_done done
    obtain ⟨held, plain⟩ := prepare_named named prepared
    exact write_named held plain written
  | directory p =>
    obtain ⟨⟨inside, place⟩, made, rest⟩ := bind_done done
    cases rest
    exact makeDirectories_named named (Path.splitSlash_clear _) made
  | link p target => exact addNew_named named done
  | socket p => exact addNew_named named done
  | remove p => exact remove_named named done

inductive Built : Disk → Prop where
  | empty : Built .empty
  | changed {d d' : Disk} {s : Step} (built : Built d) (done : d.apply s = .ok d') : Built d'

theorem built_named (built : d.Built) : d.Named := by
  induction built with
  | empty =>
    intro q node own above present
    cases present
  | changed _ done ih => exact apply_named ih done

theorem join_longer (plain : Plain name) (dir : Path) :
    dir.bytes.length < (dir.join ⟨name⟩).bytes.length := by
  obtain ⟨filled, clear⟩ := plain
  have long : 0 < name.length := List.length_pos_of_ne_nil filled
  have relative : Path.isAbsolute ⟨name⟩ = false := by
    cases name with
    | nil => rfl
    | cons b rest =>
      have other : b ≠ Path.slash := fun equal => clear (equal ▸ .head _)
      simpa [Path.isAbsolute] using other
  unfold Path.join
  rw [relative]
  dsimp only
  split
  · contradiction
  split
  · rw [List.length_append]
    omega
  · rw [List.length_append, List.length_cons]
    omega

theorem list_short (listed : d.list home dir = .ok entries) : dir.bytes.length ≤ pathLimit := by
  by_contra long
  have lost : ∃ cause, d.locate home dir = .error cause := by
    unfold locate
    split
    · exact ⟨_, rfl⟩
    · rw [if_pos (Nat.lt_of_not_le long)]
      exact ⟨_, rfl⟩
  obtain ⟨cause, lost⟩ := lost
  rw [list, lost] at listed
  cases listed

theorem entry_longer (named : d.Named) (listed : d.list home dir = .ok entries)
    (present : e ∈ entries) : dir.bytes.length < e.path.bytes.length := by
  unfold list at listed
  split at listed
  · cases listed
  · cases listed
    obtain ⟨⟨q, node⟩, row, entry⟩ := List.mem_filterMap.mp present
    dsimp only at entry
    split at entry
    · rename_i name above names
      split at entry
      · cases entry
        exact join_longer (named q node name above row names) dir
      · cases entry
    · cases entry
  · cases listed

-- Every path is longer than the one it is listed under, and paths beyond a certain length lead
-- nowhere, so a walk ends.
theorem finite_below (built : Built d) (home dir : Path) : (d.contents home).FiniteBelow dir := by
  generalize measured : pathLimit + 1 - dir.bytes.length = left
  induction left using Nat.strongRecOn generalizing dir with
  | ind left ih =>
    cases listed : d.list home dir with
    | error cause => exact .closed listed
    | ok entries =>
      refine .opened listed ?_
      intro e present _
      have longer := entry_longer (built_named built) listed present
      have short := list_short listed
      exact ih _ (by omega) e.path rfl

end ChapterCheck.Disk
