import ChapterCheck.Proofs.PathAncestry
import Mathlib.Data.List.Lex
import Mathlib.Data.List.Pairwise

namespace ChapterCheck

theorem lex_map {r : β → β → Prop} {f : α → β} (injective : Function.Injective f) {xs ys : List α} :
    List.Lex r (xs.map f) (ys.map f) ↔ List.Lex (fun x y => r (f x) (f y)) xs ys := by
  induction xs generalizing ys with
  | nil =>
    cases ys with
    | nil => exact ⟨nofun, nofun⟩
    | cons y ys => exact ⟨fun _ => .nil, fun _ => .nil⟩
  | cons x xs ih =>
    cases ys with
    | nil => exact ⟨nofun, nofun⟩
    | cons y ys =>
      rw [List.map_cons, List.map_cons, List.cons_lex_cons_iff, List.cons_lex_cons_iff, ih,
        injective.eq_iff]

theorem lex_append {r : α → α → Prop} [Std.Irrefl r] (start : List α) {p q : List α} :
    List.Lex r (start ++ p) (start ++ q) ↔ List.Lex r p q := by
  induction start with
  | nil => exact Iff.rfl
  | cons x start ih => exact List.lex_cons_iff.trans ih

namespace Component

theorem key_injective {a b : Component} (equal : a.key = b.key) : a = b := by
  have bytes : Function.Injective (List.map UInt8.toNat) :=
    List.map_injective_iff.mpr fun _ _ => UInt8.toNat_inj.mp
  cases a <;> cases b <;> simp_all [key, bytes.eq_iff]

def rank : Component → Nat
  | .root => 0
  | .here => 1
  | .parent => 2
  | .name _ => 3

inductive Precedes : Component → Component → Prop where
  | rank (lower : a.rank < b.rank) : Precedes a b
  | bytes (lower : List.Lex (· < ·) x y) : Precedes (.name x) (.name y)

def text : Component → List UInt8
  | .name bytes => bytes
  | _ => []

theorem key_exact (c : Component) : c.key = c.rank :: c.text.map UInt8.toNat := by
  cases c <;> rfl

theorem bytes_key {x y : List UInt8} :
    List.Lex (· < ·) (x.map UInt8.toNat) (y.map UInt8.toNat) ↔ List.Lex (· < ·) x y :=
  lex_map fun _ _ => UInt8.toNat_inj.mp

theorem precedes_key {a b : Component} : a.Precedes b ↔ List.Lex (· < ·) a.key b.key := by
  rw [key_exact, key_exact, List.cons_lex_cons_iff, bytes_key]
  constructor
  · intro precedes
    cases precedes with
    | rank lower => exact .inl lower
    | bytes lower => exact .inr ⟨rfl, lower⟩
  · intro lower
    rcases lower with lower | ⟨level, lower⟩
    · exact .rank lower
    · cases a with
      | name x =>
        cases b with
        | name y => exact .bytes lower
        | root | here | parent => cases level
      | root | here | parent =>
        cases b with
        | name y => cases level
        | root | here | parent => cases lower

instance : Std.Asymm Precedes where
  asymm a b first second := by
    rw [precedes_key] at first second
    exact asymm first second

end Component

namespace Path

theorem key_exact {p q : Path} : p.key = q.key ↔ p.same q = true := by
  rw [same_exact, key, key]
  exact (List.map_injective_iff.mpr fun _ _ => Component.key_injective).eq_iff

-- The order of reports: component by component, and a path before all that lie below it.
def Before (p q : Path) : Prop := List.Lex (List.Lex (· < ·)) p.key q.key

theorem before_components {p q : Path} :
    p.Before q ↔ List.Lex Component.Precedes p.components q.components := by
  have orders : Component.Precedes = fun a b => List.Lex (· < ·) a.key b.key := by
    funext a b
    exact propext Component.precedes_key
  rw [Before, key, key, lex_map fun _ _ => Component.key_injective, orders]

theorem before_exact {p q : Path} : p.before q = true ↔ p.Before q := by
  simp only [before, Before, List.lex_eq_true_iff_lex, Nat.blt_eq]

theorem notAfter_exact {p q : Path} : p.notAfter q = true ↔ ¬q.Before p := by
  rw [notAfter, Bool.not_eq_true', ← before_exact, Bool.not_eq_true]

theorem before_asymm {p q : Path} (first : p.Before q) : ¬q.Before p :=
  Std.Asymm.asymm (r := List.Lex (List.Lex (· < ·))) _ _ first

theorem before_between {p q r : Path} (apart : p.Before r) : p.Before q ∨ q.Before r :=
  IsOrderConnected.conn _ q.key _ apart

theorem before_trichotomy {p q : Path} (first : ¬p.Before q) (second : ¬q.Before p) :
    p.same q = true :=
  key_exact.mp (Std.Trichotomous.trichotomous _ _ first second)

theorem notAfter_trans (p q r : Path) (first : p.notAfter q = true) (second : q.notAfter r = true) :
    p.notAfter r = true := by
  rw [notAfter_exact] at first second ⊢
  intro back
  rcases before_between back with right | left
  · exact second right
  · exact first left

theorem notAfter_total (p q : Path) : (p.notAfter q || q.notAfter p) = true := by
  rw [Bool.or_eq_true, notAfter_exact, notAfter_exact]
  by_cases back : q.Before p
  · exact .inr (before_asymm back)
  · exact .inl back

theorem notAfter_antisymm {p q : Path} (first : p.notAfter q = true) (second : q.notAfter p = true) :
    p.same q = true :=
  before_trichotomy (notAfter_exact.mp second) (notAfter_exact.mp first)

theorem apart_equal {ps : List Path} (apart : ps.Pairwise fun p q => ¬p.same q) (first : p ∈ ps)
    (second : q ∈ ps) (met : p.same q) : p = q := by
  have : Std.Symm fun p q : Path => ¬p.same q := ⟨fun _ _ apart met => apart (same_symm met)⟩
  by_contra different
  exact apart.forall first second different met

theorem apart_nodup {ps : List Path} (apart : ps.Pairwise fun p q => ¬p.same q) : ps.Nodup := by
  refine apart.imp ?_
  rintro p q different rfl
  exact different (same_refl p)

theorem sort_before {ps : List Path} (apart : ps.Pairwise fun p q => ¬p.same q) :
    (ps.mergeSort notAfter).Pairwise Before := by
  have kept : (ps.mergeSort notAfter).Pairwise fun p q => ¬p.same q :=
    apart.perm (List.mergeSort_perm ps notAfter).symm fun apart met => apart (same_symm met)
  have sorted := List.pairwise_mergeSort notAfter_trans notAfter_total ps
  refine (kept.and sorted).imp ?_
  intro p q both
  by_contra late
  exact both.1 (before_trichotomy late (notAfter_exact.mp both.2))

theorem sort_perm {ps qs : List Path} (apart : ps.Pairwise fun p q => ¬p.same q)
    (perm : ps.Perm qs) : ps.mergeSort notAfter = qs.mergeSort notAfter := by
  have left := List.pairwise_mergeSort notAfter_trans notAfter_total ps
  have right := List.pairwise_mergeSort notAfter_trans notAfter_total qs
  have whole : (ps.mergeSort notAfter).Perm (qs.mergeSort notAfter) :=
    (List.mergeSort_perm ps notAfter).trans (perm.trans (List.mergeSort_perm qs notAfter).symm)
  refine List.Perm.eq_of_pairwise ?_ left right whole
  intro p q first second forth back
  have first := List.mem_mergeSort.mp first
  have second := perm.mem_iff.mpr (List.mem_mergeSort.mp second)
  exact apart_equal apart first second (notAfter_antisymm forth back)

theorem sort_insert {ps : List Path} (apart : (p :: ps).Pairwise fun p q => ¬p.same q) :
    ∃ smaller greater, ps.mergeSort notAfter = smaller ++ greater ∧
      (p :: ps).mergeSort notAfter = smaller ++ p :: greater ∧
      (∀ q ∈ smaller, q.Before p) ∧ ∀ q ∈ greater, p.Before q := by
  obtain ⟨smaller, greater, whole, rest, -⟩ := List.mergeSort_cons notAfter_trans notAfter_total p ps
  have ordered := sort_before apart
  rw [whole, List.pairwise_append, List.pairwise_cons] at ordered
  obtain ⟨-, ⟨behind, -⟩, across⟩ := ordered
  exact ⟨smaller, greater, rest, whole, fun q early => across q early p List.mem_cons_self, behind⟩

end Path
end ChapterCheck
