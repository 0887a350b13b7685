import ChapterCheck.Proofs.ReportCodec

namespace ChapterCheck

namespace Sink

variable {n : Nat} {before piece : List UInt8}

theorem put_fits (enough : piece.length ≤ n) :
    put ⟨some n, before⟩ piece = (⟨some (n - piece.length), before ++ piece⟩, true) := by
  simp only [put, List.take_of_length_le enough, decide_eq_true enough]

theorem put_cut (short : n < piece.length) :
    put ⟨some n, before⟩ piece = (⟨some 0, before ++ piece.take n⟩, false) := by
  have full : n - piece.length = 0 := Nat.sub_eq_zero_of_le (Nat.le_of_lt short)
  simp only [put, full, decide_eq_false (Nat.not_le.mpr short)]

def wholeOf (pieces : List String) : List UInt8 := Text.encode (String.join pieces).toList

theorem wholeOf_cons (first : String) (rest : List String) :
    wholeOf (first :: rest) = Text.encode first.toList ++ wholeOf rest := by
  rw [wholeOf, String.join_cons, String.toList_append, Text.encode_append]
  rfl

-- Where the pieces are cut does not show.
theorem putAll_fits (pieces : List String) (enough : (wholeOf pieces).length ≤ n) :
    putAll ⟨some n, before⟩ pieces =
      (⟨some (n - (wholeOf pieces).length), before ++ wholeOf pieces⟩, none) := by
  induction pieces generalizing n before with
  | nil => simp [putAll, wholeOf, Text.encode]
  | cons first rest ih =>
    rw [wholeOf_cons, List.length_append] at enough
    have own : (Text.encode first.toList).length ≤ n := by omega
    have left : (wholeOf rest).length ≤ n - (Text.encode first.toList).length := by omega
    simp only [putAll, put_fits own, if_true, ih left, wholeOf_cons, List.length_append,
      List.append_assoc, Nat.sub_sub]

theorem putAll_cut (pieces : List String) (short : n < (wholeOf pieces).length) :
    putAll ⟨some n, before⟩ pieces =
      (⟨some 0, before ++ (wholeOf pieces).take n⟩, some .full) := by
  induction pieces generalizing n before with
  | nil => simp [wholeOf, Text.encode] at short
  | cons first rest ih =>
    rw [wholeOf_cons, List.length_append] at short
    by_cases own : (Text.encode first.toList).length ≤ n
    · have left : n - (Text.encode first.toList).length < (wholeOf rest).length := by omega
      simp only [putAll, put_fits own, if_true, ih left, wholeOf_cons, List.append_assoc,
        List.take_append, List.take_of_length_le own]
    -- The first piece is cut, and the others are not written at all.
    · have stuck : n < (Text.encode first.toList).length := Nat.not_le.mp own
      have full : n - (Text.encode first.toList).length = 0 := by omega
      simp only [putAll, put_cut stuck, Bool.false_eq_true, if_false, wholeOf_cons,
        List.take_append, full, List.take_zero, List.append_nil]

structure Limits (n : Nat) (before whole : List UInt8) (outcome : Sink × Option WriteError) :
    Prop where
  succeeds : outcome.2 = none ↔ whole.length ≤ n
  fits : whole.length ≤ n → outcome.1.written = before ++ whole
  fails : n < whole.length → outcome.2 = some .full
  cut : n < whole.length → outcome.1.written = before ++ whole.take n

theorem putAll_limited (n : Nat) (before : List UInt8) (pieces : List String) :
    Limits n before (wholeOf pieces) (putAll ⟨some n, before⟩ pieces) := by
  by_cases enough : (wholeOf pieces).length ≤ n
  · rw [putAll_fits pieces enough]
    have long : ¬n < (wholeOf pieces).length := Nat.not_lt.mpr enough
    exact ⟨by simp [enough], fun _ => rfl, fun short => absurd short long,
      fun short => absurd short long⟩
  · rw [putAll_cut pieces (Nat.not_le.mp enough)]
    exact ⟨by simp [enough], fun fits => absurd fits enough, fun _ => rfl, fun _ => rfl⟩

theorem putAll_unlimited (pieces : List String) : putAll {} pieces = (⟨none, wholeOf pieces⟩, none) :=
  putAll_open [] pieces

end Sink

namespace Report

variable {r : Report} {json : Json} {out err after : Sink} {error : Option WriteError}

theorem writeHuman_passed (passed : r.findings = [])
    (told : out.putAll [r.summary] = (after, error)) (err : Sink) :
    r.writeHuman out err = ((after, err), error) := by
  have clean : r.passed = true := by simp [Report.passed, passed]
  simp only [writeHuman, clean, if_true, told]

theorem writeHuman_failed (failed : r.findings ≠ [])
    (told : err.putAll r.failedPieces = (after, error)) (out : Sink) :
    r.writeHuman out err = ((out, after), error) := by
  have unclean : r.passed = false := by simp [Report.passed, failed]
  simp only [writeHuman, unclean, Bool.false_eq_true, if_false, told]

theorem writeJson_found (found : r.toJson? = some json) (out : Sink) :
    r.writeJson out = out.putAll [json.pretty, "\n"] := by
  rw [writeJson, found]

end Report

-- However little room there is, what arrives is the start of what arrives where there is no
-- limit, and the output succeeds just where that is all of it. A report in words goes to one
-- of two sinks, and the other one is left as it was in either case.
theorem outputs_limited (n : Nat) (before : List UInt8) (other : Sink) :
    (∀ r : Report, r.findings = [] → ∃ whole,
      r.writeHuman {} other = ((⟨none, whole⟩, other), none) ∧
      ∃ out error, r.writeHuman ⟨some n, before⟩ other = ((out, other), error) ∧
        Sink.Limits n before whole (out, error)) ∧
    (∀ r : Report, r.findings ≠ [] → ∃ whole,
      r.writeHuman other {} = ((other, ⟨none, whole⟩), none) ∧
      ∃ err error, r.writeHuman other ⟨some n, before⟩ = ((other, err), error) ∧
        Sink.Limits n before whole (err, error)) ∧
    (∀ r : Report, r.Textual → ∃ whole, r.writeJson {} = (⟨none, whole⟩, none) ∧
      Sink.Limits n before whole (r.writeJson ⟨some n, before⟩)) ∧
    ∀ (f : Failure) (contexts : List String), ∃ whole,
      writeCrash (f.chain contexts) {} = (⟨none, whole⟩, none) ∧
      Sink.Limits n before whole (writeCrash (f.chain contexts) ⟨some n, before⟩) := by
  refine ⟨?_, ?_, ?_, ?_⟩
  · intro r passed
    have limited := Sink.putAll_limited n before [r.summary]
    cases told : Sink.putAll ⟨some n, before⟩ [r.summary] with
    | mk out error =>
      rw [told] at limited
      exact ⟨_, Report.writeHuman_passed passed (Sink.putAll_unlimited _) other, out, error,
        Report.writeHuman_passed passed told other, limited⟩
  · intro r failed
    have limited := Sink.putAll_limited n before r.failedPieces
    cases told : Sink.putAll ⟨some n, before⟩ r.failedPieces with
    | mk err error =>
      rw [told] at limited
      exact ⟨_, Report.writeHuman_failed failed (Sink.putAll_unlimited _) other, err, error,
        Report.writeHuman_failed failed told other, limited⟩
  · intro r textual
    obtain ⟨fields, found, -⟩ := Report.toJson_told textual
    simp only [Report.writeJson_found found]
    exact ⟨_, Sink.putAll_unlimited _, Sink.putAll_limited n before _⟩
  · intro f contexts
    exact ⟨_, Sink.putAll_unlimited _, Sink.putAll_limited n before _⟩

-- 32 bytes end between the two bytes of the accented letter.
def accentedReport : Report := ⟨1, 0, [⟨.ofString "docs/é.md", some 3, .unclosedFence⟩]⟩

theorem accentedReport_cut :
    (∃ whole err, accentedReport.writeHuman {} {} = (({}, ⟨none, whole⟩), none) ∧
      accentedReport.writeHuman {} ⟨some 32, []⟩ = (({}, err), some .full) ∧
      err.written = whole.take 32 ∧ err.written.getLast? = some 0xc3) ∧
    (∃ whole, ({} : Report).writeHuman {} {} = ((⟨none, whole⟩, {}), none) ∧
      ∃ out error, ({} : Report).writeHuman ⟨some 32, []⟩ {} = ((out, {}), error) ∧
        Sink.Limits 32 [] whole (out, error)) ∧
    ∃ whole, accentedReport.writeJson {} = (⟨none, whole⟩, none) ∧
      Sink.Limits 32 [] whole (accentedReport.writeJson ⟨some 32, []⟩) := by
  have textual : accentedReport.Textual := by
    intro f present
    obtain rfl := List.mem_singleton.mp present
    exact ⟨_, rfl⟩
  obtain ⟨passed, failed, json, -⟩ := outputs_limited 32 [] {}
  obtain ⟨whole, all, err, error, told, limits⟩ := failed accentedReport (by decide)
  have own : whole = (accentedReport.writeHuman {} {}).1.2.written := by rw [all]
  have short : 32 < whole.length := by
    rw [own]
    decide +kernel
  have cut : err.written = whole.take 32 := limits.cut short
  have last : (whole.take 32).getLast? = some 0xc3 := by
    rw [own]
    decide +kernel
  obtain rfl : error = some .full := limits.fails short
  exact ⟨⟨whole, err, all, told, cut, by rw [cut, last]⟩, passed {} rfl, json accentedReport textual⟩

end ChapterCheck
