import ChapterCheck.Proofs.ClassReading

namespace ChapterCheck.Pattern

namespace Numeral

def digit (d : Fin 10) : Mark := .plain (Char.ofNat ('0'.toNat + d.val))

theorem digit_exact : ∀ d, (digit d).isBlank = false ∧ (digit d).digit? = some d.val := by
  decide +kernel

theorem signs_marks (n : Numeral) : n.signs.map Sign.mark = n.digits.map digit := by
  rw [signs, List.map_map]
  rfl

theorem readNumber_value (n : Numeral) {x : Mark} (filled : x.isBlank = false)
    (other : x.digit? = none) (after : List Mark) :
    readNumber (n.signs.map Sign.mark ++ x :: after) = (some n.value, x :: after) := by
  have front : (n.digits.map digit ++ x :: after).dropWhile Mark.isBlank =
      n.digits.map digit ++ x :: after := by
    cases digits : n.digits with
    | nil => exact absurd digits n.filled
    | cons d ds => exact List.dropWhile_cons_of_neg (by simp [digit_exact])
  have taken : (n.digits.map digit ++ x :: after).takeWhile (·.digit?.isSome) =
      n.digits.map digit := by
    rw [List.takeWhile_append_of_pos (by simp [digit_exact]),
      List.takeWhile_cons_of_neg (by simp [other]), List.append_nil]
  have value : (n.digits.map digit).foldl (fun n m => 10 * n + m.digit?.getD 0) 0 = n.value := by
    simp [List.foldl_map, digit_exact, Numeral.value]
  have held : ((n.digits.map digit).isEmpty || UInt32.size ≤ n.value) = false := by
    have bounded : n.value < UInt32.size := n.bounded
    simp [n.filled, bounded]
  unfold readNumber
  dsimp only
  rw [signs_marks, front, taken, value, held, List.drop_left,
    List.dropWhile_cons_of_neg (by simp [filled])]
  rfl

end Numeral

-- A question mark right behind a count would make it lazy.
def Quiet (ms : List Mark) : Prop := ms.head? ≠ some (.plain '?')

namespace Count

def least : Count → Nat
  | .star => 0
  | .plus => 1
  | .optional => 0
  | .exactly n => n.value
  | .atLeast n => n.value
  | .between least _ _ => least.value

def more : Count → Option Nat
  | .star => none
  | .plus => none
  | .optional => some 1
  | .exactly _ => some 0
  | .atLeast _ => none
  | .between least most _ => some (most.value - least.value)

theorem readCount_exactly (n : Numeral) (rest : List Mark) :
    readCount (n.signs.map Sign.mark ++ .plain '\x7d' :: rest) = .ok ((n.value, some 0), rest) := by
  rw [readCount, n.readNumber_value (by decide) (by decide)]
  rfl

theorem readCount_atLeast (n : Numeral) (rest : List Mark) :
    readCount (n.signs.map Sign.mark ++ .plain ',' :: .plain '\x7d' :: rest) =
      .ok ((n.value, none), rest) := by
  rw [readCount, n.readNumber_value (by decide) (by decide)]
  rfl

theorem readCount_between (n m : Numeral) (ordered : n.value ≤ m.value) (rest : List Mark) :
    readCount (n.signs.map Sign.mark ++
        .plain ',' :: (m.signs.map Sign.mark ++ .plain '\x7d' :: rest)) =
      .ok ((n.value, some (m.value - n.value)), rest) := by
  have other : ∀ after, m.signs.map Sign.mark ++ .plain '\x7d' :: rest ≠ .plain '\x7d' :: after := by
    intro after equal
    rw [Numeral.signs_marks] at equal
    cases digits : m.digits with
    | nil => exact m.filled digits
    | cons d ds =>
      rw [digits, List.map_cons, List.cons_append] at equal
      have digit := (Numeral.digit_exact d).2
      rw [(List.cons.inj equal).1] at digit
      cases digit
  have read := m.readNumber_value (x := .plain '\x7d') (by decide) (by decide) rest
  generalize m.signs.map Sign.mark ++ .plain '\x7d' :: rest = tail at other read
  rw [readCount, n.readNumber_value (by decide) (by decide)]
  split
  · rename_i equal
    cases equal
  · rename_i equal
    cases equal
    exact absurd rfl (other _)
  · rename_i equal
    cases equal
    rw [read]
    exact if_pos ordered
  · rename_i missing
    exact absurd rfl (missing _ _)

theorem readLazy_exact (greedy : Bool) (quiet : greedy = true → Quiet rest) :
    readLazy ((if greedy then [] else [.plain '?']) ++ rest) = (!greedy, rest) := by
  cases greedy with
  | false => rfl
  | true =>
    have quiet := quiet rfl
    rw [if_pos rfl, List.nil_append, readLazy]
    · rfl
    · rintro after rfl
      exact quiet rfl

theorem reads (count : Count) (greedy : Bool) (quiet : greedy = true → Quiet rest) :
    Reads (count.signs.map Sign.mark ++ ((if greedy then [] else [.plain '?']) ++ rest)) rest
      [.repeated count.least count.more (!greedy)] := by
  have lazy := readLazy_exact greedy quiet
  have shorter : rest.length ≤ ((if greedy then [] else [Mark.plain '?']) ++ rest).length := by
    rw [List.length_append]
    exact Nat.le_add_left _ _
  generalize (if greedy then [] else [Mark.plain '?']) ++ rest = tail at lazy shorter
  have alone {c : Char} (read : readToken c tail =
      .ok (.repeated count.least count.more (readLazy tail).1, (readLazy tail).2)) :
      Reads (.plain c :: tail) rest [.repeated count.least count.more (!greedy)] :=
    .one (by rw [read, lazy]) shorter
  have braced {text : List Sign}
      (read : readCount (text.map Sign.mark ++ tail) = .ok ((count.least, count.more), tail)) :
      Reads (.plain '\x7b' :: (text.map Sign.mark ++ tail)) rest
        [.repeated count.least count.more (!greedy)] := by
    refine .one ?_ ?_
    · change (readCount (text.map Sign.mark ++ tail)).map _ = _
      rw [read, Except.map]
      dsimp only
      rw [lazy]
    · rw [List.length_append]
      exact Nat.le_trans shorter (Nat.le_add_left _ _)
  cases count with
  | star => exact alone rfl
  | plus => exact alone rfl
  | optional => exact alone rfl
  | exactly n =>
    refine braced ?_
    rw [List.map_append, List.append_assoc]
    exact readCount_exactly n tail
  | atLeast n =>
    refine braced ?_
    rw [List.map_append, List.append_assoc]
    exact readCount_atLeast n tail
  | between n m ordered =>
    refine braced ?_
    rw [List.map_append, List.append_assoc, List.map_cons, List.cons_append, List.map_append,
      List.append_assoc]
    exact readCount_between n m ordered tail

end Count

def Level.Ends : Level → List Mark → Prop
  | .piece greedy, rest => greedy = true → Quiet rest
  | .row, rest => Quiet rest
  | .choice, rest => Quiet rest

theorem quiet_sign {s : Sign} (other : s.bare? ≠ some '?') (rest : List Mark) : Quiet (s.mark :: rest) :=
  fun met => other (Sign.mark_plain.mp (Option.some.inj met))

theorem quiet_plain (other : c ≠ '?') (rest : List Mark) : Quiet (.plain c :: rest) := by
  intro met
  cases met
  exact other rfl

theorem Count.quiet {count : Count} (apart : count ≠ .optional) (rest : List Mark) :
    Quiet (count.signs.map Sign.mark ++ rest) := by
  cases count with
  | optional => exact absurd rfl apart
  | _ => exact quiet_plain (by decide) _

namespace Written

def tokens : Written l → List Token
  | .sign s _ => [.literal s.meant]
  | .dot => [.dot]
  | .members m => [.members m.spans m.negated]
  | .start => [.caret]
  | .finish => [.dollar]
  | .group captures body => .opening captures [] :: (body.tokens ++ [.closing])
  | .times body count greedy _ => body.tokens ++ [.repeated count.least count.more (!greedy)]
  | .nothing => []
  | .beside first rest => first.tokens ++ rest.tokens
  | .only row => row.tokens
  | .or row rest => row.tokens ++ .bar :: rest.tokens

theorem piece_opens : (w : Written (.piece greedy)) →
    ∃ s signs, w.signs = s :: signs ∧ s.bare? ≠ some '?'
  | .sign s literal => ⟨s, [], rfl, literal '?' (by decide)⟩
  | .dot => ⟨_, _, rfl, by decide⟩
  | .members m => ⟨_, _, rfl, by decide⟩
  | .start => ⟨_, _, rfl, by decide⟩
  | .finish => ⟨_, _, rfl, by decide⟩
  | .group captures body => ⟨_, _, rfl, by decide⟩
  | .times body count greedy _ => by
    obtain ⟨s, signs, first, other⟩ := body.piece_opens
    exact ⟨s, _, by rw [Written.signs, first]; rfl, other⟩

theorem row_quiet (w : Written .row) (quiet : Quiet rest) : Quiet (w.signs.map Sign.mark ++ rest) := by
  cases w with
  | nothing => exact quiet
  | beside first row =>
    obtain ⟨s, _, whole, other⟩ := first.piece_opens
    rw [signs, whole]
    exact quiet_sign other _

theorem choice_quiet (w : Written .choice) (quiet : Quiet rest) :
    Quiet (w.signs.map Sign.mark ++ rest) := by
  cases w with
  | only row => exact row.row_quiet quiet
  | or row choice =>
    rw [signs, List.map_append, List.append_assoc]
    exact row.row_quiet (quiet_plain (by decide) _)

theorem sign_reads (s : Sign) (literal : s.Literal) (rest : List Mark) :
    Reads (s.mark :: rest) rest [.literal s.meant] := by
  cases s with
  | bare c plain =>
    have other : ∀ d ∈ Sign.operators, c ≠ d := fun d operator met =>
      literal d operator (congrArg some met)
    refine .one ?_ (Nat.le_refl _)
    simp [Sign.operators] at other
    simp [readToken, other, Sign.meant]
  | named name known => exact .escaped _ rest

theorem opening_reads (captures : Bool) (quiet : Quiet rest) :
    Reads (.plain '(' :: ((if captures then [] else [.plain '?', .plain ':']) ++ rest)) rest
      [.opening captures []] := by
  cases captures with
  | false => exact .one rfl (Nat.le_add_right _ 2)
  | true =>
    refine .one ?_ (Nat.le_refl _)
    have read : readOpening rest = .ok (.opening true [], rest) := by
      unfold readOpening
      split
      · exact absurd rfl quiet
      · exact absurd rfl quiet
      · rfl
    exact read

-- What is written is read as its tokens, with any rest behind it that may follow its level.
theorem reads (w : Written l) (ends : l.Ends rest) :
    Reads (w.signs.map Sign.mark ++ rest) rest w.tokens := by
  induction w generalizing rest with
  | sign s literal => exact sign_reads s literal rest
  | dot => exact .one rfl (Nat.le_refl _)
  | members m => exact m.reads rest
  | start => exact .one rfl (Nat.le_refl _)
  | finish => exact .one rfl (Nat.le_refl _)
  | group captures body ih =>
    have ended : Quiet (.plain ')' :: rest) := quiet_plain (by decide) rest
    have inner : Quiet (body.signs.map Sign.mark ++ .plain ')' :: rest) := body.choice_quiet ended
    have closing : Reads (.plain ')' :: rest) rest [.closing] := .one rfl (Nat.le_refl _)
    have whole := (opening_reads captures inner).trans ((ih ended).trans closing)
    cases captures <;> simpa [signs, tokens, Sign.mark_bare] using whole
  | times body count greedy apart ih =>
    have lazy : (if greedy then [] else [.bare '?']).map Sign.mark =
        if greedy then [] else [.plain '?'] := by cases greedy <;> rfl
    rw [signs, List.map_append, List.map_append, List.append_assoc, List.append_assoc, lazy]
    exact (ih fun before => Count.quiet (apart before) _).trans (count.reads greedy ends)
  | nothing => exact .nothing rest
  | beside first row ih ih' =>
    rw [signs, List.map_append, List.append_assoc]
    exact (ih fun _ => row.row_quiet ends).trans (ih' ends)
  | only row ih => exact ih ends
  | or row choice ih ih' =>
    have bar : Reads (.plain '|' :: (choice.signs.map Sign.mark ++ rest)) _ [.bar] :=
      .one rfl (Nat.le_refl _)
    have ended : Level.row.Ends (.plain '|' :: (choice.signs.map Sign.mark ++ rest)) :=
      quiet_plain (by decide) _
    have whole := (ih ended).trans (bar.trans (ih' ends))
    simpa [signs, tokens, Sign.mark_bare] using whole

end Written

namespace Flag

def letter : Flag → Char
  | .anyCase => 'i'
  | .eachLine => 'm'
  | .dotTakesAll => 's'

theorem sign_mark (f : Flag) : f.sign.mark = .plain f.letter := by cases f <;> rfl

theorem letter_injective {f g : Flag} (same : f.letter = g.letter) : f = g := by
  cases f <;> cases g <;> first | rfl | cases same

def turnedOn (f : Flag) : Char × Bool := (f.letter, true)

theorem readFlags_step (f : Flag) (fresh : f.letter ∉ change.map Prod.fst) (rest : List Mark) :
    readFlags change true (.plain f.letter :: rest) =
      readFlags (change ++ [f.turnedOn]) true rest := by
  have new : ¬(change.map Prod.fst).contains f.letter = true := mt List.contains_iff_mem.mp fresh
  cases f <;> exact (if_pos rfl).trans (if_neg new)

theorem readFlags_letters {letters : List Flag} (once : letters.Nodup)
    (fresh : ∀ f ∈ letters, f.letter ∉ change.map Prod.fst) (filled : change ≠ [] ∨ letters ≠ [])
    (rest : List Mark) :
    readFlags change true (letters.map (fun f => f.sign.mark) ++ .plain ')' :: rest) =
      .ok (.setting (change ++ letters.map turnedOn), rest) := by
  induction letters generalizing change with
  | nil =>
    have changed : change.isEmpty = false := by simpa using filled
    simp [readFlags, changed]
  | cons f letters ih =>
    obtain ⟨apart, once⟩ := List.nodup_cons.mp once
    have fresh' : ∀ g ∈ letters, g.letter ∉ (change ++ [f.turnedOn]).map Prod.fst := by
      intro g present met
      rw [List.map_append, List.mem_append] at met
      rcases met with old | last
      · exact fresh g (List.mem_cons_of_mem _ present) old
      · have same : g.letter = f.letter := List.mem_singleton.mp last
        exact apart (letter_injective same ▸ present)
    have read := ih once fresh' (.inl (by simp))
    rw [List.append_assoc] at read
    rw [List.map_cons, List.cons_append, sign_mark, readFlags_step f (fresh f List.mem_cons_self)]
    exact read

end Flag

def Setting.token (s : Setting) : Token := .setting (s.letters.map Flag.turnedOn)

theorem Setting.reads (s : Setting) (rest : List Mark) :
    Reads (s.signs.map Sign.mark ++ rest) rest [s.token] := by
  have fresh : ∀ f ∈ s.letters, f.letter ∉ ([] : FlagChange).map Prod.fst := fun _ _ => nofun
  have read := Flag.readFlags_letters s.once fresh (.inr s.filled) rest
  have marks : s.signs.map Sign.mark ++ rest =
      .plain '(' :: .plain '?' :: (s.letters.map (fun f => f.sign.mark) ++ .plain ')' :: rest) := by
    simp [signs, Sign.mark_bare, Function.comp_def]
  have opening : readOpening (.plain '?' ::
      (s.letters.map (fun f => f.sign.mark) ++ .plain ')' :: rest)) = .ok (s.token, rest) := by
    cases letters : s.letters with
    | nil => exact absurd letters s.filled
    | cons f letters' =>
      rw [letters] at read
      rw [Setting.token, letters]
      refine Eq.trans ?_ read
      cases f <;> rfl
  rw [marks]
  exact .one opening (by simp only [List.length_cons, List.length_append]; omega)

theorem Setting.reads_all (settings : List Setting) (rest : List Mark) :
    Reads ((settings.flatMap Setting.signs).map Sign.mark ++ rest) rest
      (settings.map Setting.token) := by
  induction settings with
  | nil => exact .nothing rest
  | cons first settings ih =>
    rw [List.flatMap_cons, List.map_append, List.append_assoc]
    exact (first.reads _).trans ih

namespace Source

def tokens (s : Source) : List Token := s.settings.map Setting.token ++ s.body.tokens

theorem tokens_text (s : Source) : Pattern.tokens s.text.toList = .ok s.tokens := by
  have ended : Level.choice.Ends [] := nofun
  have body := s.body.reads ended
  rw [List.append_nil] at body
  have whole := (Setting.reads_all s.settings _).trans body
  rw [← List.map_append] at whole
  rw [Pattern.tokens, text, String.toList_ofList, marks_text]
  exact whole.whole

end Source

end ChapterCheck.Pattern
