import CommitGate.Proofs.Php.Scan
import Mathlib.Algebra.Group.Nat.Even
import Mathlib.Data.List.DropRight
import Mathlib.Order.Bounds.Defs

/-! Where a string ends, read backwards. The scan takes a backslash with the character after it, so a
quote is taken for itself exactly if the backslashes right before it pair up among themselves. -/
namespace CommitGate.Php

def endingBackslashes (text : Text) : Text := text.rtakeWhile (· = '\\')

/-- At `j` stands the character that stands at `start`, behind an even number of backslashes in a row. -/
structure ClosesAt (text : Text) (start j : Nat) : Prop where
  behind : start < j
  inside : j < text.length
  same : text[j]? = text[start]?
  even : Even (endingBackslashes (text.take j)).length

variable {quote c : Char} {before body : Text}

theorem endingBackslashes_concat (text : Text) :
    endingBackslashes (text ++ ['\\']) = endingBackslashes text ++ ['\\'] :=
  List.rtakeWhile_concat_pos _ _ _ (by decide)

theorem endingBackslashes_concat_of_ne (h : c ≠ '\\') (text : Text) :
    endingBackslashes (text ++ [c]) = [] :=
  List.rtakeWhile_concat_neg _ _ _ (by simpa using h)

/-- A backslash and the character that it takes along leave the backslashes before them paired. -/
theorem even_escape (h : Even (endingBackslashes before).length) (c : Char) :
    Even (endingBackslashes (before ++ ['\\'] ++ [c])).length := by
  by_cases hc : c = '\\'
  · rw [hc, endingBackslashes_concat, endingBackslashes_concat, List.length_append,
      List.length_append, List.length_singleton, Nat.even_add_one, Nat.even_add_one, not_not]
    exact h
  · rw [endingBackslashes_concat_of_ne hc]
    exact Even.zero

theorem QuotedBody.even (h : QuotedBody quote body) :
    ∀ {before : Text}, Even (endingBackslashes before).length →
      Even (endingBackslashes (before ++ body)).length := by
  induction h with
  | nil =>
    intro before heven
    rwa [List.append_nil]
  | escape c _ ih =>
    intro before heven
    simpa using ih (even_escape heven c)
  | @plain c body _ hc _ ih =>
    intro before heven
    have hplain : Even (endingBackslashes (before ++ [c])).length := by
      rw [endingBackslashes_concat_of_ne hc]
      exact Even.zero
    simpa using ih hplain

theorem QuotedBody.odd (hq : quote ≠ '\\') (h : QuotedBody quote body) :
    ∀ {before : Text}, Even (endingBackslashes before).length → ∀ k, body[k]? = some quote →
      ¬Even (endingBackslashes (before ++ body.take k)).length := by
  induction h with
  | nil =>
    intro before _ k hk
    cases hk
  | @escape c body _ ih =>
    intro before heven k hk
    match k with
    | 0 => exact absurd (Option.some.inj hk).symm hq
    | 1 =>
      -- The quote is what the backslash takes along: with that one, the number before it is odd.
      rw [List.take_succ_cons, List.take_zero, endingBackslashes_concat, List.length_append,
        List.length_singleton, Nat.even_add_one, not_not]
      exact heven
    | k + 2 => simpa using ih (even_escape heven c) k hk
  | @plain c body hne hc _ ih =>
    intro before heven k hk
    cases k with
    | zero => exact absurd (Option.some.inj hk) hne
    | succ k =>
      have hplain : Even (endingBackslashes (before ++ [c])).length := by
        rw [endingBackslashes_concat_of_ne hc]
        exact Even.zero
      simpa using ih hplain k hk

theorem QuotedBody.odd_append (hq : quote ≠ '\\') (h : QuotedBody quote body)
    (heven : Even (endingBackslashes before).length) (more : Text) {k : Nat} (hk : k < body.length)
    (hhere : (body ++ more)[k]? = some quote) :
    ¬Even (endingBackslashes (before ++ (body ++ more).take k)).length := by
  rw [List.getElem?_append_left hk] at hhere
  rw [List.take_append_of_le_length hk.le]
  exact h.odd hq heven k hhere

theorem OpenQuotedBody.odd (hq : quote ≠ '\\') {text : Text} (h : OpenQuotedBody quote text)
    (heven : Even (endingBackslashes before).length) {k : Nat} (hhere : text[k]? = some quote) :
    ¬Even (endingBackslashes (before ++ text.take k)).length := by
  rcases h with h | ⟨body, h, rfl⟩
  · exact h.odd hq heven k hhere
  · obtain ⟨hk, hlast⟩ := List.getElem?_eq_some_iff.mp hhere
    rw [List.length_append, List.length_singleton] at hk
    rcases Nat.lt_succ_iff_lt_or_eq.mp hk with hk | rfl
    · exact h.odd_append hq heven _ hk hhere
    · rw [List.getElem_concat_length rfl] at hlast
      exact absurd hlast.symm hq

section Closes

variable {text : Text} {start j : Nat} (hlt : start < text.length)
include hlt

theorem closesAt_iff :
    ClosesAt text start j ↔ ∃ k, j = start + 1 + k ∧ (text.drop (start + 1))[k]? = some text[start] ∧
      Even (endingBackslashes (text.take (start + 1) ++ (text.drop (start + 1)).take k)).length := by
  rw [← List.getElem?_eq_getElem hlt]
  constructor
  · rintro ⟨hbehind, _, hsame, heven⟩
    obtain ⟨k, rfl⟩ := Nat.exists_eq_add_of_le (Nat.succ_le_of_lt hbehind)
    refine ⟨k, rfl, ?_, ?_⟩
    · rwa [List.getElem?_drop]
    · rwa [← List.take_add]
  · rintro ⟨k, rfl, hsame, heven⟩
    rw [List.getElem?_drop] at hsame
    rw [← List.take_add] at heven
    have hinside := (List.getElem?_eq_some_iff.mp (hsame.trans (List.getElem?_eq_getElem hlt))).1
    exact ⟨by omega, hinside, hsame, heven⟩

theorem even_opening (hquote : text[start] ≠ '\\') :
    Even (endingBackslashes (text.take (start + 1))).length := by
  rw [List.take_add_one, List.getElem?_eq_getElem hlt, Option.toList_some,
    endingBackslashes_concat_of_ne hquote]
  exact Even.zero

theorem stringEnd?_eq : stringEnd? text start =
    some (start + 1 + (throughQuote text[start] (text.drop (start + 1))).1.length) := by
  rw [stringEnd?, List.drop_eq_getElem_cons hlt]

/-- A string ends behind the first of its quotes with an even number of backslashes in a row before
it, and with the text if it has no such quote. -/
theorem string_ends_at_first_close (hquote : text[start] ≠ '\\') :
    ∃ stop, stringEnd? text start = some stop ∧ start < stop ∧ stop ≤ text.length ∧
      ((∃ j, ClosesAt text start j) → IsLeast {j | ClosesAt text start j} (stop - 1)) ∧
      ((¬∃ j, ClosesAt text start j) → stop = text.length) := by
  have heven := even_opening hlt hquote
  have hlength : start + 1 + (text.drop (start + 1)).length = text.length := by
    rw [List.length_drop]
    omega
  refine ⟨_, stringEnd?_eq hlt, by omega, ?_⟩
  rcases quotedBody_cases text[start] (text.drop (start + 1)) with ⟨body, after, hbody, hrest⟩ | hopen
  · have hcloses : ClosesAt text start (start + 1 + body.length) := by
      refine (closesAt_iff hlt).mpr ⟨body.length, rfl, ?_, ?_⟩
      · rw [hrest, List.getElem?_append_right le_rfl, Nat.sub_self]
        rfl
      · rw [hrest, List.take_left]
        exact hbody.even heven
    have hfirst : ∀ j, ClosesAt text start j → start + 1 + body.length ≤ j := by
      intro j hj
      obtain ⟨k, rfl, hsame, hpairs⟩ := (closesAt_iff hlt).mp hj
      rw [hrest] at hsame hpairs
      by_contra hbefore
      exact hbody.odd_append hquote heven _ (by omega) hsame hpairs
    rw [hrest, throughQuote_closed hquote hbody, List.length_append, List.length_singleton]
    exact ⟨hcloses.inside, fun _ => ⟨hcloses, hfirst⟩, fun hnone => absurd ⟨_, hcloses⟩ hnone⟩
  · have hnone : ¬∃ j, ClosesAt text start j := by
      rintro ⟨j, hj⟩
      obtain ⟨k, _, hsame, hpairs⟩ := (closesAt_iff hlt).mp hj
      exact hopen.odd hquote heven hsame hpairs
    rw [throughQuote_open hopen, hlength]
    exact ⟨le_rfl, fun hsome => absurd hsome hnone, fun _ => rfl⟩

end Closes

def twoStrings : Text := "'\\\\\\'\\\\'b'\\'\\".toList

theorem two_strings_end :
    stringEnd? twoStrings 0 = some 8 ∧ IsLeast {j | ClosesAt twoStrings 0 j} 7 ∧
      (¬∃ j, ClosesAt twoStrings 9 j) ∧ stringEnd? twoStrings 9 = some twoStrings.length := by
  obtain ⟨stop, hstop, _, _, hclosed, _⟩ :=
    string_ends_at_first_close (show 0 < twoStrings.length by decide) (by decide)
  obtain ⟨stop', hstop', _, _, _, hopen⟩ :=
    string_ends_at_first_close (show 9 < twoStrings.length by decide) (by decide)
  have hfirst : stringEnd? twoStrings 0 = some 8 := by decide
  obtain rfl := Option.some.inj (hfirst.symm.trans hstop)
  have hcloses : ClosesAt twoStrings 0 7 := ⟨by decide, by decide, by decide, by decide⟩
  have hnone : ¬∃ j, ClosesAt twoStrings 9 j := by
    rintro ⟨j, hbehind, hinside, hsame, heven⟩
    have hplaces : ∀ k < twoStrings.length, 9 < k → twoStrings[k]? = twoStrings[9]? →
        ¬Even (endingBackslashes (twoStrings.take k)).length := by decide
    exact hplaces j hinside hbehind hsame heven
  exact ⟨hfirst, hclosed ⟨7, hcloses⟩, hnone, hstop'.trans (congrArg some (hopen hnone))⟩

end CommitGate.Php
