import ChapterCheck.Proofs.CaseFolding
import ChapterCheck.Proofs.PatternStretches
import ChapterCheck.Proofs.SourceTokens

namespace ChapterCheck.Pattern

open ChapterCheck.Expr (Stretches Allows)

variable {flags : Flags} {l : Level}

theorem members_exact (flags : Flags) (set : CharSet) (c : Char) :
    (flags.members set).contains c ↔
      ((∃ d, CharSet.listed set.ranges d ∧ flags.Alike c d) ↔ set.negated = false) := by
  have held : CharSet.listed (flags.members set).ranges c ↔
      ∃ d, CharSet.listed set.ranges d ∧ flags.Alike c d := by
    cases folding : flags.anyCase with
    | false => simp [Flags.members, Flags.Alike, folding]
    | true =>
      simp only [Flags.members, Flags.Alike, folding, if_true, CharSet.anyCase, CharSet.anyCase_exact,
        true_and]
      refine exists_congr fun d => and_congr_right fun _ => ?_
      exact (or_iff_right_of_imp (congrArg Text.fold)).symm
  have negated : (flags.members set).negated = set.negated := by
    unfold Flags.members
    split <;> rfl
  rw [← held, CharSet.contains, negated]
  cases CharSet.listed (flags.members set).ranges c <;> cases set.negated <;> simp

theorem single_exact (flags : Flags) (c d : Char) :
    (flags.members (.single d)).contains c ↔ flags.Alike c d := by
  have single : ∀ x, CharSet.listed (CharSet.single d).ranges x ↔ x = d :=
    fun x => (CharSet.listed_points [d] x).trans List.mem_singleton
  have whole : (CharSet.single d).negated = false := rfl
  rw [members_exact, whole, iff_true_right rfl]
  simp only [single, exists_eq_left]

theorem dot_exact (all : Bool) (c : Char) :
    (CharSet.mk (if all then [] else [CharSet.point '\n']) true).contains c ↔
      all = true ∨ c ≠ '\n' := by
  cases all with
  | true => simp [CharSet.contains, CharSet.listed]
  | false =>
    have line := CharSet.listed_points ['\n'] c
    rw [List.mem_singleton] at line
    rw [ne_eq, ← line]
    simp [CharSet.contains]

theorem Item.span_exact (i : Item) (d : Char) :
    i.span.1 ≤ d.toNat ∧ d.toNat ≤ i.span.2 ↔ i.Holds d := by
  cases i with
  | one s => exact CharSet.point_exact s.meant d
  | range first last => exact Iff.rfl

theorem Members.spans_exact (m : Members) (d : Char) : CharSet.listed m.spans d ↔ m.Lists d := by
  have lead : (∃ range ∈ m.lead.spans, range.1 ≤ d.toNat ∧ d.toNat ≤ range.2) ↔ m.lead.Holds d := by
    cases m.lead with
    | bracket =>
      rw [Lead.spans, Lead.Holds, ← CharSet.point_exact]
      simp only [List.mem_singleton, exists_eq_left]
    | hyphens n =>
      rw [Lead.spans, Lead.Holds, ← CharSet.point_exact]
      simp only [List.mem_replicate, Nat.pos_iff_ne_zero, and_assoc, exists_and_left, exists_eq_left]
  rw [CharSet.listed_exact, Lists, spans, ← lead]
  simp only [List.mem_append, or_and_right, exists_or, List.mem_map, exists_exists_and_eq_and,
    Item.span_exact]

theorem Members.chars_exact (m : Members) (c : Char) :
    (flags.members ⟨m.spans, m.negated⟩).contains c ↔ m.Takes flags c := by
  rw [members_exact]
  simp only [Members.spans_exact, Takes]

theorem Count.admits_exact (count : Count) (n : Nat) :
    count.Admits n ↔ Allows count.least count.more n := by
  cases count <;> simp [Admits, Allows, least, more] <;> omega

namespace OpenGroup

def pushAll (g : OpenGroup) (ps : List Part) : OpenGroup := ps.foldl push g

theorem pushAll_exact (g : OpenGroup) (ps : List Part) :
    g.pushAll ps = { g with parts := (ps.map some).reverse ++ g.parts } := by
  induction ps generalizing g with
  | nil => rfl
  | cons p ps ih =>
    rw [pushAll, List.foldl_cons, ← pushAll, ih]
    simp [push]

-- Settings take no text, so only what was pushed on them counts.
theorem alternative_pushAll {g : OpenGroup} (bare : g.parts.filterMap id = []) (ps : List Part) :
    (g.pushAll ps).alternative.expr = Expr.sequence (ps.map Part.expr) := by
  have parts : (g.pushAll ps).parts.reverse.filterMap id = ps := by
    rw [pushAll_exact, List.reverse_append, List.reverse_reverse, List.filterMap_append,
      List.filterMap_reverse, bare]
    simp
  rw [alternative, parts]

theorem foldl_describes (ps : List Part) (e : Expr) (b s a : List Char) :
    (ps.foldl (fun e left => .either left.expr e) e).Describes b s a ↔
      (∃ p ∈ ps, p.expr.Describes b s a) ∨ e.Describes b s a := by
  induction ps generalizing e with
  | nil => simp
  | cons p ps ih =>
    rw [List.foldl_cons, ih, List.exists_mem_cons_iff]
    exact or_left_comm.trans or_assoc.symm

theorem close_describes (g : OpenGroup) (b s a : List Char) :
    g.close.expr.Describes b s a ↔
      (∃ p ∈ g.alternatives, p.expr.Describes b s a) ∨ g.alternative.expr.Describes b s a := by
  unfold close
  split
  · rename_i single
    simp [List.isEmpty_iff.mp single]
  · exact foldl_describes _ _ b s a

-- What was read of a level: a part, some parts in a row, or alternatives up to the last.
def Grown (g : OpenGroup) (meaning : Stretches) : Level → OpenGroup → Prop
  | .piece _, g' => ∃ p : Part, p.expr.Describes = meaning ∧ g' = g.push p
  | .row, g' =>
    ∃ ps : List Part, (Expr.sequence (ps.map Part.expr)).Describes = meaning ∧ g' = g.pushAll ps
  | .choice, g' => g'.captures = g.captures ∧ ∀ b s a, g'.close.expr.Describes b s a ↔
      (∃ p ∈ g.alternatives, p.expr.Describes b s a) ∨ meaning b s a

end OpenGroup

-- In any open group and with any tokens behind it, what is written adds to the group what it
-- describes. Sides of a choice are closed one by one, so a group must not hold parts before.
theorem nest_written (w : Written l) (outer : List OpenGroup) (g : OpenGroup) (rest : List Token)
    (bare : l = .choice → g.parts.filterMap id = []) :
    ∃ g', g.Grown (w.Describes g.flags) l g' ∧
      nest outer g (w.tokens ++ rest) = nest outer g' rest := by
  induction w generalizing outer g rest with
  | sign s literal =>
    refine ⟨_, ⟨.chars (g.flags.members (.single s.meant)) 0, ?_, rfl⟩, rfl⟩
    funext b t a
    simp only [Part.chars, Expr.Describes, Written.Describes, single_exact]
  | dot =>
    refine ⟨_, ⟨.chars ⟨if g.flags.dotTakesAll then [] else [CharSet.point '\n'], true⟩ 0, ?_, rfl⟩, rfl⟩
    funext b t a
    simp only [Part.chars, Expr.Describes, Written.Describes, dot_exact]
  | members m =>
    refine ⟨_, ⟨.members g.flags m.spans m.negated, ?_, rfl⟩, rfl⟩
    funext b t a
    simp only [Part.members, Part.chars, Expr.Describes, Written.Describes, Members.chars_exact]
  | start => exact ⟨_, ⟨⟨.start g.flags.eachLine, _, 0⟩, rfl, rfl⟩, rfl⟩
  | finish => exact ⟨_, ⟨⟨.finish g.flags.eachLine, _, 0⟩, rfl, rfl⟩, rfl⟩
  | group captures body ih =>
    -- The body is read in a group of its own and comes back as one part of this one.
    obtain ⟨g', ⟨kept, closes⟩, read⟩ :=
      ih (g :: outer) { flags := g.flags, captures := captures } (.closing :: rest) fun _ => rfl
    refine ⟨g.push (g'.close.inGroup g'.captures), ⟨_, ?_, rfl⟩, ?_⟩
    · funext b s a
      exact propext ((closes b s a).trans (by simp [Written.Describes]))
    · rw [Written.tokens, List.cons_append, List.append_assoc]
      exact read
  | times body count greedy apart ih =>
    obtain ⟨_, ⟨p, described, rfl⟩, read⟩ :=
      ih outer g (.repeated count.least count.more (!greedy) :: rest) (by simp)
    refine ⟨g.push (p.repeated count.least count.more (!greedy)), ⟨_, ?_, rfl⟩, ?_⟩
    · have counts : Allows count.least count.more = fun n => count.Admits n :=
        funext fun n => propext (count.admits_exact n).symm
      rw [Part.repeated, Expr.times_counted, described, counts]
      rfl
    · rw [Written.tokens, List.append_assoc]
      exact read
  | nothing => exact ⟨g, ⟨[], rfl, rfl⟩, rfl⟩
  | beside first row ih ih' =>
    obtain ⟨_, ⟨p, described, rfl⟩, read⟩ := ih outer g (row.tokens ++ rest) (by simp)
    obtain ⟨_, ⟨ps, described', rfl⟩, read'⟩ := ih' outer (g.push p) rest (by simp)
    refine ⟨_, ⟨p :: ps, ?_, rfl⟩, ?_⟩
    · rw [List.map_cons, Expr.sequence_cons, described, described']
      rfl
    · rw [Written.tokens, List.append_assoc, read, read']
      rfl
  | only row ih =>
    obtain ⟨_, ⟨ps, described, rfl⟩, read⟩ := ih outer g rest (by simp)
    refine ⟨_, ⟨?_, ?_⟩, read⟩
    · rw [OpenGroup.pushAll_exact]
    · intro b s a
      rw [OpenGroup.close_describes, OpenGroup.alternative_pushAll (bare rfl), described,
        OpenGroup.pushAll_exact]
      rfl
  | or row choice ih ih' =>
    -- The side read so far is put away, and the choice goes on with an empty row.
    obtain ⟨_, ⟨ps, described, rfl⟩, read⟩ := ih outer g (.bar :: (choice.tokens ++ rest)) (by simp)
    obtain ⟨g', ⟨kept, closes⟩, read'⟩ := ih' outer (g.pushAll ps).nextAlternative rest fun _ => rfl
    refine ⟨g', ⟨?_, ?_⟩, ?_⟩
    · rw [kept, OpenGroup.pushAll_exact]
      rfl
    · intro b s a
      rw [closes, OpenGroup.nextAlternative, List.exists_mem_cons_iff,
        OpenGroup.alternative_pushAll (bare rfl), described, OpenGroup.pushAll_exact]
      exact or_assoc.trans or_left_comm
    · rw [Written.tokens, List.append_assoc]
      exact read.trans read'

namespace Flags

def has (flags : Flags) : Flag → Bool
  | .anyCase => flags.anyCase
  | .eachLine => flags.eachLine
  | .dotTakesAll => flags.dotTakesAll

theorem has_exact {flags flags' : Flags} (same : ∀ f, flags.has f = flags'.has f) :
    flags = flags' := by
  obtain ⟨i, m, s⟩ := flags
  obtain ⟨i', m', s'⟩ := flags'
  obtain rfl : i = i' := same .anyCase
  obtain rfl : m = m' := same .eachLine
  obtain rfl : s = s' := same .dotTakesAll
  rfl

theorem set_has (flags : Flags) (f g : Flag) :
    (flags.set f.turnedOn).has g = (flags.has g || decide (g = f)) := by
  cases f <;> cases g <;> simp [Flag.turnedOn, Flag.letter, set, has]

theorem change_has (flags : Flags) (letters : List Flag) (f : Flag) :
    (flags.change (letters.map Flag.turnedOn)).has f = (flags.has f || decide (f ∈ letters)) := by
  induction letters generalizing flags with
  | nil => simp [change]
  | cons g letters ih =>
    have step : flags.change ((g :: letters).map Flag.turnedOn) =
        (flags.set g.turnedOn).change (letters.map Flag.turnedOn) := rfl
    rw [step, ih, set_has, Bool.or_assoc]
    simp

end Flags

theorem nest_settings (settings : List Setting) (outer : List OpenGroup) (g : OpenGroup)
    (rest : List Token) (bare : g.parts.filterMap id = []) :
    ∃ g', (∀ f, g'.flags.has f = (g.flags.has f || settings.any (f ∈ ·.letters))) ∧
      g'.alternatives = g.alternatives ∧ g'.parts.filterMap id = [] ∧
      nest outer g (settings.map Setting.token ++ rest) = nest outer g' rest := by
  induction settings generalizing g with
  | nil => exact ⟨g, by simp, rfl, bare, rfl⟩
  | cons first settings ih =>
    obtain ⟨g', sets, same, empty, read⟩ := ih
      { g with
        flags := g.flags.change (first.letters.map Flag.turnedOn), parts := none :: g.parts } bare
    refine ⟨g', ?_, same, empty, read⟩
    intro f
    rw [sets, Flags.change_has, Bool.or_assoc, List.any_cons]

theorem bounded_accepted {p : Part} (accepted : bounded p = .ok e) : e = p.expr := by
  unfold bounded at accepted
  dsimp only at accepted
  split at accepted
  · cases accepted
  · split at accepted
    · cases accepted
    · exact (Except.ok.inj accepted).symm

namespace Source

theorem parse_describes (s : Source) (accepted : parse s.text.toList = .ok e) :
    e.Describes = s.body.Describes s.flags := by
  obtain ⟨g, sets, fresh, bare, settings⟩ :=
    nest_settings s.settings [] { flags := {} } s.body.tokens rfl
  obtain ⟨g', ⟨-, closes⟩, body⟩ := nest_written s.body [] g [] fun _ => bare
  have flags : g.flags = s.flags := by
    apply Flags.has_exact
    intro f
    rw [sets]
    cases f <;> rfl
  have closed : parse s.text.toList = bounded g'.close := by
    rw [List.append_nil] at body
    rw [parse, tokens_text, tokens]
    dsimp only
    rw [settings, body]
    rfl
  rw [closed] at accepted
  rw [bounded_accepted accepted]
  funext b t a
  rw [closes, flags, fresh]
  simp

end Source

end ChapterCheck.Pattern
