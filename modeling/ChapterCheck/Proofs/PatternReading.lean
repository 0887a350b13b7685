import ChapterCheck.Pattern.Reading
import ChapterCheck.Proofs.PatternStretches

namespace ChapterCheck

namespace Reading

open ChapterCheck.Expr

-- The expression that a reading has come from, up to how its repetitions are written out.
def expr : Reading → Expr
  | .idle e => e
  | .taken set => .chars set
  | .seq first second => .seq first.expr second.expr
  | .either left right => .either left.expr right.expr
  | .again body => .times body.expr 1 none false

-- What may follow the text read so far, for a stretch that stands in the reading to be through.
def Goes : Reading → Stretches
  | .idle _ => fun _ _ _ => False
  | .taken _ => fun _ stretch _ => stretch = []
  | .seq first second => fun before stretch after =>
    Then first.Goes second.expr.Describes before stretch after ∨ second.Goes before stretch after
  | .either left right => fun before stretch after =>
    left.Goes before stretch after ∨ right.Goes before stretch after
  | .again body => Then body.Goes (Counted body.expr.Describes fun _ => True)

def Stands (r : Reading) (entered : Bool) : Stretches := fun before stretch after =>
  r.Goes before stretch after ∨ entered = true ∧ r.expr.Describes before stretch after

variable {p one : Stretches} {P Q P' Q' : Nat → Prop} {b s a : List Char} {body e : Expr}
  {first second left right r : Reading}

-- A reading of so many rounds, of which one was begun and so many may follow it.
structure Begins (r : Reading) (one p : Stretches) (counts left : Nat → Prop) : Prop where
  all : r.expr.Describes = Counted p counts
  begun : r.Goes = Then one (Counted p left)

theorem Begins.congr (begins : Begins r one p P Q) (all : ∀ n, P n ↔ P' n)
    (left : ∀ n, Q n ↔ Q' n) : Begins r one p P' Q' := by
  have counts : P = P' := funext fun n => propext (all n)
  have rest : Q = Q' := funext fun n => propext (left n)
  rwa [counts, rest] at begins

theorem begins_one (own : r.expr.Describes = p) : Begins r r.Goes p (· = 1) (· = 0) where
  all := by rw [own, ← counted_exact, rounds_one]
  begun := then_done.symm

theorem begins_idle (counted : e.Describes = Counted p P) :
    Begins (.idle e) one p P fun _ => False where
  all := counted
  begun := by
    funext b s a
    exact (eq_false then_none).symm

theorem Begins.seq (begins : Begins first one p P Q) (follows : Begins second one p P' Q') :
    Begins (.seq first second) one p (plus P P') fun n => plus Q P' n ∨ Q' n where
  all := by rw [← counted_then, ← begins.all, ← follows.all]; rfl
  begun := by
    funext b s a
    rw [← then_or, ← counted_then, ← then_assoc, ← begins.begun, ← follows.all, ← follows.begun]
    rfl

theorem Begins.either (begins : Begins left one p P Q) (other : Begins right one p P' Q') :
    Begins (.either left right) one p (fun n => P n ∨ P' n) fun n => Q n ∨ Q' n where
  all := by
    funext b s a
    rw [← counted_or, ← begins.all, ← other.all]
    rfl
  begun := by
    funext b s a
    rw [← then_or, ← begins.begun, ← other.begun]
    rfl

theorem begins_again (own : r.expr.Describes = p) :
    Begins (.again r) r.Goes p (1 ≤ ·) fun _ => True where
  all := by
    rw [expr, times_counted, own]
    congr 1
    funext n
    simp [Allows]
  begun := by rw [Goes, own]

theorem firstBegun_begins (own : r.expr.Describes = body.Describes) (n : Nat) (positive : 1 ≤ n) :
    Begins (firstBegun body r n) r.Goes body.Describes (· = n) (· + 1 = n) := by
  induction n using Nat.strongRecOn with
  | ind n ih =>
    rw [firstBegun]
    split
    · exact (begins_one own).congr (by omega) (by omega)
    · have later : Begins (.idle (.times body (n - n / 2) (some 0) false)) r.Goes
          body.Describes (· = n - n / 2) fun _ => False := begins_idle (times_exactly body _ false)
      refine ((ih (n / 2) (by omega) (by omega)).seq later).congr ?_ ?_
      · intro k
        simp only [plus_left]
        omega
      · intro k
        simp only [plus_right, or_false]
        omega

theorem eachBegun_begins (own : r.expr.Describes = p) (n : Nat) (positive : 1 ≤ n) :
    Begins (eachBegun r n) r.Goes p (· = n) (· < n) := by
  induction n using Nat.strongRecOn with
  | ind n ih =>
    rw [eachBegun]
    split
    · exact (begins_one own).congr (by omega) (by omega)
    · have later := ih (n - n / 2) (by omega) (by omega)
      refine ((ih (n / 2) (by omega) (by omega)).seq later).congr ?_ ?_
      · intro k
        simp only [plus_left]
        omega
      · intro k
        simp only [plus_right]
        omega

theorem roundsBegun_begins (own : r.expr.Describes = body.Describes) (skippable : Bool) (n : Nat)
    (positive : 1 ≤ n) : Begins (roundsBegun body r skippable n) r.Goes body.Describes (· = n)
      fun m => m < n ∧ (m + 1 = n ∨ skippable = true) := by
  cases skippable with
  | true => exact (eachBegun_begins own n positive).congr (fun _ => Iff.rfl) (by simp)
  | false => exact (firstBegun_begins own n positive).congr (fun _ => Iff.rfl) (by simp; omega)

theorem upToBegun_begins (own : r.expr.Describes = body.Describes) (most : Nat) (positive : 1 ≤ most) :
    Begins (upToBegun body r most) r.Goes body.Describes (fun n => 1 ≤ n ∧ n ≤ most) (· < most) := by
  have size : block = 64 := rfl
  have within : Begins (.seq r (.idle (.times body 0 (some (min most block - 1)) false)))
      r.Goes body.Describes (fun n => 1 ≤ n ∧ n ≤ min most block) (· < min most block) := by
    refine ((begins_one own).seq (begins_idle (times_upTo body _ false))).congr ?_ ?_ <;>
      intro k <;> simp only [plus_left, or_false] <;> omega
  rw [upToBegun]
  split
  · rename_i small
    rwa [Nat.min_eq_left small] at within ⊢
  · have full := (firstBegun_begins own block (by decide)).seq
      (begins_idle (times_upTo body (most - block) false))
    refine (within.either full).congr ?_ ?_
    · intro k
      simp only [plus_left]
      omega
    · intro k
      have filled : (fun m => m + 1 = block) = (· = block - 1) := by
        funext m
        exact propext (by omega)
      simp only [filled, plus_left, or_false]
      omega

-- Where rounds may be empty, the one that takes text may be any of those that must be; with those
-- that need not be after it, the rest can be of any size.
theorem plus_skippable (skippable : Bool) (n extra k : Nat) :
    plus (fun m => m < n + 1 ∧ (m + 1 = n + 1 ∨ skippable = true)) (· ≤ extra) k ↔
      (n ≤ k ∨ skippable = true) ∧ k ≤ n + extra := by
  constructor
  · rintro ⟨i, j, ⟨few, last | skip⟩, fewer, rfl⟩
    · omega
    · exact ⟨.inr skip, by omega⟩
  · rintro ⟨enough | skip, most⟩
    · exact ⟨n, k - n, ⟨by omega, .inl rfl⟩, by omega, by omega⟩
    · exact ⟨min n k, k - min n k, ⟨by omega, .inr skip⟩, by omega, by omega⟩

theorem timesBegun_begins (own : r.expr.Describes = body.Describes) (skippable : Bool) (least : Nat)
    (more : Option Nat) : Begins (timesBegun body r skippable least more) r.Goes body.Describes
      (Allows least more) (Leaves least more (skippable = true)) := by
  have idle : Begins (.idle .empty) r.Goes body.Describes (· = 0) fun _ => False :=
    begins_idle (counted_exact 0)
  have rounds := fun n => roundsBegun_begins own skippable (n + 1) (Nat.le_add_left 1 n)
  unfold timesBegun
  split
  · refine (idle.either (begins_again own)).congr ?_ ?_ <;> simp [Allows, Leaves]
    omega
  · refine (begins_again own).congr ?_ ?_ <;> simp [Allows, Leaves]
  · rename_i n
    split
    · rename_i skip
      refine ((rounds n).seq (begins_again own)).congr ?_ (by simp [Leaves, skip])
      intro k
      simp only [plus_left]
      simp [Allows]
      omega
    · rename_i filled
      refine ((rounds n).seq (begins_idle (times_atLeast body 1 false))).congr ?_ ?_
      · intro k
        simp only [plus_left]
        simp [Allows]
        omega
      · intro k
        have last : (fun m => m < n + 1 ∧ (m + 1 = n + 1 ∨ skippable = true)) = (· = n) := by
          funext m
          simp [filled]
          omega
        simp only [last, plus_left]
        simp [Leaves, filled]
        omega
  · refine idle.congr ?_ ?_ <;> simp [Allows, Leaves]
  · rename_i extra
    refine (idle.either (upToBegun_begins own (extra + 1) (by omega))).congr ?_ ?_
    · simp [Allows]
      omega
    · intro k
      simp only [Leaves, Option.mem_some_iff, forall_eq', Nat.zero_le, true_or, true_and, false_or]
      omega
  · rename_i n
    refine (rounds n).congr ?_ ?_
    · simp [Allows]
      omega
    · intro k
      simp [Leaves]
      grind
  · rename_i n extra _
    refine ((rounds n).seq (begins_idle (times_upTo body extra false))).congr ?_ ?_
    · intro k
      simp only [plus_left]
      simp [Allows]
      omega
    · intro k
      simp only [plus_skippable]
      simp [Leaves]
      omega

theorem join_expr (first second : Reading) : (join first second).expr = .seq first.expr second.expr := by
  unfold join
  split <;> rfl

theorem join_goes (first second : Reading) : (join first second).Goes b s a ↔
    (Reading.seq first second).Goes b s a := by
  unfold join
  split
  · simp [Goes, Then]
  · rfl

theorem fork_expr (left right : Reading) : (fork left right).expr = .either left.expr right.expr := by
  unfold fork
  split <;> rfl

theorem fork_goes (left right : Reading) : (fork left right).Goes b s a ↔
    left.Goes b s a ∨ right.Goes b s a := by
  unfold fork
  split
  · simp [Goes]
  · rfl

theorem loop_expr (body : Reading) : (loop body).expr = .times body.expr 1 none false := by
  unfold loop
  split <;> rfl

theorem loop_goes (body : Reading) : (loop body).Goes b s a ↔ (Reading.again body).Goes b s a := by
  unfold loop
  split
  · simp [Goes, Then]
  · rfl

theorem enter_expr (before : Option Char) (c : Char) (e : Expr) :
    (enter before c e).expr.Describes = e.Describes := by
  induction e with
  | empty => rfl
  | chars set =>
    rw [enter]
    split <;> rfl
  | start eachLine => rfl
  | finish eachLine => rfl
  | seq first second one two =>
    rw [enter, join_expr]
    split
    · funext b s a
      simp only [Describes, one, two]
    · funext b s a
      simp only [Describes, one, expr]
  | either left right one two =>
    rw [enter, fork_expr]
    funext b s a
    simp only [Describes, one, two]
  | times body least more lazy ih =>
    rw [enter]
    split
    · rfl
    · rw [times_counted, (timesBegun_begins ih _ least more).all]

theorem enter_goes (e : Expr) (b : List Char) (c : Char) (s a : List Char) :
    (enter b.getLast? c e).Goes (b ++ [c]) s a ↔ e.Describes b (c :: s) a := by
  induction e generalizing s a with
  | empty => simp [enter, Goes, Describes]
  | chars set =>
    rw [enter, chars_ahead]
    split
    · rename_i held
      simp [Goes, held]
    · rename_i other
      simp [Goes, other]
  | start eachLine => simp [enter, Goes, Describes]
  | finish eachLine => simp [enter, Goes, Describes]
  | seq first second one two =>
    rw [enter, join_goes, show (Expr.seq first second).Describes =
      Then first.Describes second.Describes from rfl, then_cons, ← acceptsEmpty_ahead, or_comm]
    simp only [Goes, Then, one]
    refine or_congr ?_ ?_
    · split <;> simp only [enter_expr, expr]
    · split
      · rename_i empty
        simp only [empty, two, true_and]
      · rename_i filled
        simp [filled, Goes]
  | either left right one two => simp only [enter, fork_goes, Describes, one, two]
  | times body least more lazy ih =>
    rw [enter, times_counted, counted_begun, ← acceptsEmpty_ahead]
    split
    · rename_i stuck
      simp only [stuck, Goes] at ih
      simp only [Goes, Then, Behind, ← ih, false_and, and_false, exists_false]
    · rw [(timesBegun_begins (enter_expr _ c body) _ least more).begun]
      simp only [Then, Behind, ih]

theorem stands_seq (entered : Bool) : (Reading.seq first second).Stands entered b s a ↔
    second.Goes b s a ∨ Then (first.Stands entered) second.expr.Describes b s a := by
  have parts : Then (first.Stands entered) second.expr.Describes b s a ↔
      Then first.Goes second.expr.Describes b s a ∨
        entered = true ∧ Then first.expr.Describes second.expr.Describes b s a := by
    simp only [Then, Stands, or_and_right, and_or_left, exists_or]
    refine or_congr Iff.rfl ?_
    grind
  rw [parts, ← or_assoc, or_comm (a := second.Goes b s a)]
  rfl

theorem stands_again (entered : Bool) : (Reading.again body').Stands entered b s a ↔
    Then (body'.Stands entered) (Counted body'.expr.Describes fun _ => True) b s a := by
  simp only [Stands, Goes, expr, times_atLeast, counted_more]
  simp only [Then, Stands, or_and_right, and_or_left, exists_or]
  refine or_congr Iff.rfl ?_
  grind

theorem through_exact (r : Reading) (entered : Bool) (b a : List Char) :
    r.through b.getLast? a.head? entered = true ↔ r.Stands entered b [] a := by
  induction r generalizing entered with
  | idle e => simp [through, Stands, Goes, expr, acceptsEmpty_exact]
  | taken set => simp [through, Stands, Goes]
  | seq first second one two => rw [through, two, stands_seq, then_empty, ← one, Stands]
  | either left right one two =>
    simp only [through, Bool.or_eq_true, one, two, Stands, Goes, expr, Describes]
    grind
  | again body ih => rw [through, ih, stands_again, then_empty, and_iff_left counted_nothing]

theorem through_ahead (r : Reading) (entered : Bool) (b a : List Char) (c : Char) :
    r.through b.getLast? (some c) entered = true ↔ r.Stands entered b [] (c :: a) :=
  r.through_exact entered b (c :: a)

theorem read_expr (r : Reading) (before : Option Char) (c : Char) (entered : Bool) :
    (r.read before c entered).2.expr.Describes = r.expr.Describes := by
  induction r generalizing entered with
  | idle e =>
    rw [read]
    split
    · exact enter_expr before c e
    · rfl
  | taken set =>
    rw [read]
    split <;> rfl
  | seq first second one two =>
    rw [read, join_expr]
    funext b s a
    simp only [Describes, one, two, expr]
  | either left right one two =>
    rw [read, fork_expr]
    funext b s a
    simp only [Describes, one, two, expr]
  | again body ih => rw [read, loop_expr, expr, times_counted, times_counted, ih]

theorem read_done (r : Reading) (entered : Bool) (b : List Char) (c : Char) (a : List Char) :
    (r.read b.getLast? c entered).1 = true ↔ r.Stands entered b [] (c :: a) := by
  induction r generalizing entered with
  | idle e =>
    cases entered with
    | true => simp [read, Stands, Goes, expr, acceptsEmpty_ahead (a := a)]
    | false => simp [read, Stands, Goes]
  | taken set => simp [read, Stands, Goes]
  | seq first second one two => rw [read, two, stands_seq, then_empty, ← one, Stands]
  | either left right one two =>
    simp only [read, Bool.or_eq_true, one, two, Stands, Goes, expr, Describes]
    grind
  | again body ih =>
    rw [read, ih, stands_again, then_empty, and_iff_left counted_nothing]
    simp only [Stands, Bool.or_eq_true, through_ahead (a := a)]
    grind

theorem read_goes (r : Reading) (entered : Bool) (b : List Char) (c : Char) (s a : List Char) :
    (r.read b.getLast? c entered).2.Goes (b ++ [c]) s a ↔ r.Stands entered b (c :: s) a := by
  induction r generalizing entered s a with
  | idle e =>
    cases entered with
    | true => simp [read, Stands, Goes, expr, enter_goes]
    | false => simp [read, Stands, Goes]
  | taken set =>
    simp only [read, Stands, Goes, expr, chars_ahead]
    cases entered <;> cases set.contains c <;> simp [Goes]
  | seq first second one two =>
    rw [read, join_goes, stands_seq, then_cons, ← read_done]
    simp only [Goes, Then, one, two, read_expr]
    rw [Stands]
    grind
  | either left right one two =>
    simp only [read, fork_goes, one, two, Stands, Goes, expr, Describes]
    grind
  | again body ih =>
    -- A stretch that is through a round begins the next one here, and c may belong to that.
    rw [read, loop_goes, stands_again, then_cons, counted_ahead]
    simp only [Goes, Then, Behind, ih, read_expr, Stands, Bool.or_eq_true,
      through_ahead (a := s ++ a), Bool.false_eq_true, false_and, or_false]
    constructor
    · rintro ⟨head, tail, equal, stood | ⟨came | passed, taken⟩, rest⟩
      · exact .inr ⟨head, tail, equal, .inl stood, rest⟩
      · exact .inr ⟨head, tail, equal, .inr ⟨came, taken⟩, rest⟩
      · exact .inl ⟨.inl passed, head, tail, equal, taken, rest⟩
    · rintro (⟨passed | ⟨came, -⟩, head, tail, equal, taken, rest⟩ |
        ⟨head, tail, equal, stood | ⟨came, taken⟩, rest⟩)
      · exact ⟨head, tail, equal, .inr ⟨.inr passed, taken⟩, rest⟩
      · exact ⟨head, tail, equal, .inr ⟨.inl came, taken⟩, rest⟩
      · exact ⟨head, tail, equal, .inl stood, rest⟩
      · exact ⟨head, tail, equal, .inr ⟨.inl came, taken⟩, rest⟩

-- A stretch stands in the reading, or begins somewhere from here on.
theorem occursFrom_exact (r : Reading) (b text : List Char) :
    r.occursFrom b.getLast? text = true ↔
      (∃ s a, text = s ++ a ∧ r.Goes b s a) ∨
        ∃ passed s a, text = passed ++ (s ++ a) ∧ r.expr.Describes (b ++ passed) s a := by
  -- Each character leaves another reading, so the induction is for all of them.
  induction text generalizing r b with
  | nil =>
    rw [occursFrom, show none = ([] : List Char).head? from rfl, through_exact]
    simp [Stands, and_assoc]
  | cons c rest ih =>
    have next := ih (r.read b.getLast? c true).2 (b ++ [c])
    rw [List.getLast?_concat] at next
    simp only [occursFrom, Bool.or_eq_true, read_done (a := rest), next, read_goes, read_expr, Stands,
      true_and]
    constructor
    · rintro ((stood | begun) | ⟨s, a, rfl, stood | begun⟩ | ⟨passed, s, a, rfl, begun⟩)
      · exact .inl ⟨[], c :: rest, rfl, stood⟩
      · exact .inr ⟨[], [], c :: rest, rfl, by simpa using begun⟩
      · exact .inl ⟨c :: s, a, rfl, stood⟩
      · exact .inr ⟨[], c :: s, a, rfl, by simpa using begun⟩
      · exact .inr ⟨c :: passed, s, a, rfl, by simpa using begun⟩
    · rintro (⟨s, a, equal, stood⟩ | ⟨passed, s, a, equal, begun⟩)
      · cases s with
        | nil =>
          obtain rfl : c :: rest = a := equal
          exact .inl (.inl stood)
        | cons d s =>
          obtain ⟨rfl, rfl⟩ : c = d ∧ rest = s ++ a := List.cons.inj equal
          exact .inr (.inl ⟨s, a, rfl, .inl stood⟩)
      · cases passed with
        | cons d passed =>
          obtain ⟨rfl, rfl⟩ : c = d ∧ rest = passed ++ (s ++ a) := List.cons.inj equal
          exact .inr (.inr ⟨passed, s, a, rfl, by simpa using begun⟩)
        | nil =>
          rw [List.append_nil] at begun
          cases s with
          | nil =>
            obtain rfl : c :: rest = a := equal
            exact .inl (.inr begun)
          | cons d s =>
            obtain ⟨rfl, rfl⟩ : c = d ∧ rest = s ++ a := List.cons.inj equal
            exact .inr (.inl ⟨s, a, rfl, .inr begun⟩)

end Reading

theorem Expr.occursIn_exact (e : Expr) (text : List Char) : e.occursIn text = true ↔ e.Occurs text := by
  rw [occursIn, show none = ([] : List Char).getLast? from rfl, Reading.occursFrom_exact]
  simp [Reading.Goes, Reading.expr, Occurs]

end ChapterCheck
