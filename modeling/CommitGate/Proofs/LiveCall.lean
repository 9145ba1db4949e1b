import CommitGate.Proofs.Clean
import CommitGate.Proofs.Php.Copied
import CommitGate.Proofs.Verdict
import Mathlib.Data.List.DropRight

/-! Calls outside comments, before and after the comments go. Without its comment the text on both
sides of it is one, so a call that stands right behind a comment may become the tail of a longer word;
it is found exactly if that word is listed too. -/
namespace CommitGate

namespace Text

def lastWord (text : Text) : Text := text.rtakeWhile isWord

theorem exists_lastWord (text : Text) :
    ∃ front, text = front ++ lastWord text ∧ isWord? front.getLast? = false := by
  refine ⟨text.rdropWhile isWord, List.rdropWhile_append_rtakeWhile.symm, ?_⟩
  by_cases hne : text.rdropWhile isWord = []
  · rw [hne]
    rfl
  · rw [List.getLast?_eq_some_getLast hne]
    exact Bool.eq_false_iff.2 (List.rdropWhile_last_not _ _ hne)

theorem lastWord_append {front word : Text} (hword : ∀ c ∈ word, isWord c)
    (hfront : isWord? front.getLast? = false) : lastWord (front ++ word) = word := by
  induction word using List.reverseRecOn with
  | nil =>
    rw [List.append_nil]
    refine List.rtakeWhile_eq_nil_iff.2 fun hne => ?_
    rw [List.getLast?_eq_some_getLast hne] at hfront
    exact Bool.eq_false_iff.1 hfront
  | append_singleton word c ih =>
    rw [← List.append_assoc, lastWord, List.rtakeWhile_concat_pos _ _ _ (hword c (by simp))]
    exact congrArg (· ++ [c]) (ih fun d hd => hword d (List.mem_append_left _ hd))

end Text

namespace Calls

def Words (names : List Text) : Prop :=
  ∀ name ∈ alternatives names, name ≠ [] ∧ ∀ c ∈ name, Text.isWord c

theorem words_of_all {names : List Text}
    (h : (alternatives names).all fun name => !name.isEmpty && name.all Text.isWord) :
    Words names := by
  intro name hname
  have hall := List.all_eq_true.1 h name hname
  rw [Bool.and_eq_true, Bool.not_eq_true', List.isEmpty_eq_false_iff, List.all_eq_true] at hall
  exact hall

theorem Words.plain {names : List Text} (h : Words names) : Plain names := by
  intro name hname hp
  have hc := (h name hname).2 _ hp
  exact absurd hc (by decide +kernel)

theorem Words.isWord_head {names : List Text} (h : Words names) {name : Text}
    (hname : name ∈ alternatives names) (after : Text) :
    Text.isWord? (name ++ ['('] ++ after).head? = true := by
  obtain ⟨hne, hword⟩ := h name hname
  obtain ⟨c, rest, rfl⟩ := List.exists_cons_of_ne_nil hne
  exact hword c List.mem_cons_self

/-- A match covers the text from `start` to `stop`. -/
def Covered (names : List Text) (text : Text) (start stop : Nat) : Prop :=
  ∃ span ∈ spans names text, span.start ≤ start ∧ stop ≤ span.stop

instance (names : List Text) (text : Text) (start stop : Nat) :
    Decidable (Covered names text start stop) :=
  inferInstanceAs (Decidable (∃ span ∈ _, _))

/-- A name with its parenthesis, wherever it stands, is in a match exactly if the word that it is the
tail of is listed. -/
theorem covered_iff {names : List Text} (hw : Words names) {name : Text}
    (hname : name ∈ alternatives names) (before after : Text) :
    Covered names (before ++ (name ++ ['(']) ++ after) before.length
        (before.length + (name ++ ['(']).length) ↔
      Text.lastWord before ++ name ∈ alternatives names := by
  constructor
  · -- The match ends with the parenthesis, so what it has before the name is a part of that word.
    rintro ⟨span, hs, hstart, hstop⟩
    obtain ⟨front, call, rest, ht, rfl, hcall, hb⟩ := spans_sound hs
    dsimp only at hstart hstop
    rw [List.append_assoc, List.append_assoc front] at ht
    have hprefix : front <+: before := by
      have hfront : front <+: before ++ (name ++ ['('] ++ after) := ⟨call ++ rest, ht.symm⟩
      exact List.prefix_of_prefix_length_le hfront (List.prefix_append _ _) hstart
    obtain ⟨mid, rfl⟩ := hprefix
    rw [List.append_assoc front, List.append_cancel_left_eq] at ht
    have hlt : mid.length < call.length := by
      simp only [List.length_append, List.length_cons, List.length_nil] at hstop
      omega
    have hend : call = mid ++ (name ++ ['(']) :=
      hcall.same_end hw.plain ⟨name, hname, rfl⟩
        (ht.symm.trans (List.append_assoc mid _ after).symm) hlt
    obtain ⟨whole, hwhole, rfl⟩ := hcall
    rw [← List.append_assoc, List.append_cancel_right_eq] at hend
    have hfront : Text.isWord? front.getLast? = false := by
      rw [Text.atBoundary, hw.isWord_head hwhole] at hb
      simpa using hb
    have hmid : ∀ c ∈ mid, Text.isWord c := fun c hc =>
      (hw whole hwhole).2 c (hend ▸ List.mem_append_left _ hc)
    rw [Text.lastWord_append hmid hfront, ← hend]
    exact hwhole
  · intro hmem
    obtain ⟨front, hbefore, hlast⟩ := Text.exists_lastWord before
    have hcall : CallBetween names front (Text.lastWord before ++ name ++ ['(']) after := by
      refine ⟨⟨_, hmem, rfl⟩, ?_⟩
      rw [Text.atBoundary, hlast, hw.isWord_head hmem]
      rfl
    have ht : before ++ (name ++ ['(']) ++ after =
        front ++ (Text.lastWord before ++ name ++ ['(']) ++ after := by
      conv_lhs => rw [hbefore]
      simp only [List.append_assoc]
    obtain ⟨span, hs, hstart, hstop⟩ := spans_complete hw.plain ht hcall
    have hlen := congrArg List.length hbefore
    rw [List.length_append] at hlen
    refine ⟨span, hs, by omega, ?_⟩
    simp only [hstop, List.length_append]
    omega

end Calls

namespace Check

open Session

theorem words_phpDebugFunctions : Calls.Words phpDebugFunctions :=
  Calls.words_of_all (by decide +kernel)

/-- The name in a match, which ends in the parenthesis. -/
def nameAt (text : Text) (span : Calls.Span) : Text :=
  (text.drop span.start).take (span.stop - 1 - span.start)

/-- Behind what the comments leave of the text before it, the name in a match is a listed name still,
or the tail of one. -/
def StaysListed (text : Text) (span : Calls.Span) : Prop :=
  Text.lastWord (Php.copied text span.start) ++ nameAt text span ∈ phpDebugFunctions

instance (text : Text) (span : Calls.Span) : Decidable (StaysListed text span) :=
  inferInstanceAs (Decidable (_ ∈ _))

theorem nameAt_append (before name after : Text) :
    nameAt (before ++ (name ++ ['(']) ++ after)
      ⟨before.length, before.length + (name ++ ['(']).length⟩ = name := by
  have hlen : before.length + (name ++ ['(']).length - 1 - before.length = name.length := by
    rw [List.length_append, List.length_singleton]
    omega
  rw [nameAt, hlen, List.append_assoc, List.drop_left, List.append_assoc, List.take_left]

theorem staysListed_of_isLive_before {text : Text} {span : Calls.Span}
    (h : span ∈ Calls.spans phpDebugFunctions text)
    (live : Php.IsLive text (span.start - 1) span.start) : StaysListed text span := by
  obtain ⟨before, call, after, rfl, rfl, hcall, hb⟩ := Calls.spans_sound h
  obtain ⟨name, hname, rfl⟩ := hcall
  have hfront : Text.isWord? before.getLast? = false := by
    rw [Text.atBoundary, words_phpDebugFunctions.isWord_head hname] at hb
    simpa using hb
  have hword : Text.lastWord (Php.copied (before ++ (name ++ ['(']) ++ after) before.length) = [] := by
    cases before using List.reverseRecOn with
    | nil => rfl
    | append_singleton front c _ =>
      have hlen : (front ++ [c]).length = front.length + [c].length := List.length_append
      rw [List.append_assoc _ (name ++ ['('])] at live ⊢
      dsimp only at live
      rw [hlen, List.length_singleton, Nat.add_sub_cancel] at live
      rw [hlen, (Php.copied_of_isLive live).1]
      refine List.rtakeWhile_concat_neg _ _ c ?_
      rw [List.getLast?_concat] at hfront
      exact Bool.eq_false_iff.1 hfront
  rw [StaysListed, hword, nameAt_append]
  exact hname

/-- A check that goes by the text without comments, since the linter gives none, and finds a call
there asks for an abort, however it ends. -/
theorem php_requests_abort {programs : Programs} {linter : Linter} {path : Text} {copy : Path}
    {content : Bytes} {s : Session} (hread : s.tree.read copy.toText = .ok content)
    (hstrip : Linter.strippedBy (s.moment.ask programs (linter.stripCommand copy)).1 = .ok none)
    (hcall : Calls.occurIn phpDebugFunctions (Php.withoutComments (Utf8.readLossy content))) :
    (ending (php programs linter path copy s)).findings.abortRequested := by
  apply (php_searched path hread hstrip).2
  rw [withCalls, if_pos (show hasDebugCall none (Utf8.readLossy content) from hcall)]
  rfl

/-- A call outside comments is still in a match without them exactly if its name stays listed, as it
does where no comment ends right before it; and then the check of a file asks for an abort, when the
linter does not print the file. -/
theorem live_call_found_iff {text : Text} {span : Calls.Span}
    (h : span ∈ Calls.spans phpDebugFunctions text)
    (live : Php.IsLive text span.start span.stop) :
    (Calls.Covered phpDebugFunctions (Php.withoutComments text)
        (Php.copyIndex text span.start) (Php.copyIndex text span.stop) ↔ StaysListed text span) ∧
      (Php.IsLive text (span.start - 1) span.start → StaysListed text span) ∧
      (StaysListed text span → ∀ (programs : Programs) (linter : Linter) (path : Text) (copy : Path)
        (content : Bytes) (s : Session), s.tree.read copy.toText = .ok content →
        Utf8.readLossy content = text →
        Linter.strippedBy (s.moment.ask programs (linter.stripCommand copy)).1 = .ok none →
        (ending (php programs linter path copy s)).findings.abortRequested) := by
  have found : Calls.Covered phpDebugFunctions (Php.withoutComments text)
      (Php.copyIndex text span.start) (Php.copyIndex text span.stop) ↔ StaysListed text span := by
    obtain ⟨before, call, after, rfl, rfl, ⟨name, hname, rfl⟩, _⟩ := Calls.spans_sound h
    obtain ⟨hcopied, rest, hrest⟩ := Php.copied_of_isLive live
    have key := Calls.covered_iff words_phpDebugFunctions hname
      (Php.copied (before ++ (name ++ ['(']) ++ after) before.length) rest
    rw [← hcopied, hrest, ← List.length_append, ← hcopied] at key
    rw [StaysListed, nameAt_append]
    exact key
  refine ⟨found, staysListed_of_isLive_before h, ?_⟩
  rintro hstays programs linter path copy content s hread rfl hstrip
  obtain ⟨span', hs, _⟩ := found.2 hstays
  refine php_requests_abort hread hstrip ?_
  rw [Calls.occurIn, Bool.not_eq_true', List.isEmpty_eq_false_iff_exists_mem]
  exact ⟨span', hs⟩

theorem call_behind_comment_found :
    Calls.Covered phpDebugFunctions (Php.withoutComments "<?php f();/* x */dpm(1);".toList)
      (Php.copyIndex "<?php f();/* x */dpm(1);".toList 17)
      (Php.copyIndex "<?php f();/* x */dpm(1);".toList 21) :=
  (live_call_found_iff (show ⟨17, 21⟩ ∈ _ by decide +kernel) (by decide +kernel)).1.2
    (by decide +kernel)

def unlintedRun (source : String) : Programs :=
  Dialogue.programs (Hook.oneStaged source ++ List.replicate 2 (.notStarted ⟨.notFound, []⟩))

/-- A comment between a keyword and a call hides the call: no match is left, and without a linter
the commit goes on. -/
theorem call_joined_to_keyword_hidden :
    ⟨16, 20⟩ ∈ Calls.spans phpDebugFunctions "<?php return/**/dpm(1);".toList ∧
      Php.IsLive "<?php return/**/dpm(1);".toList 16 20 ∧
      ¬Calls.Covered phpDebugFunctions (Php.withoutComments "<?php return/**/dpm(1);".toList)
        (Php.copyIndex "<?php return/**/dpm(1);".toList 16)
        (Php.copyIndex "<?php return/**/dpm(1);".toList 20) ∧
      value? (Hook.run (unlintedRun "<?php return/**/dpm(1);") ⟨none, none⟩ Dialogue.start) =
        some ⟨0, []⟩ := by
  decide +kernel

end Check

end CommitGate
