import CommitGate.Proofs.Calls
import Mathlib.Data.List.Sort
import Mathlib.Data.Set.Function
import Mathlib.Order.Bounds.Basic

/-! Calls told by their parenthesis. A match ends with a parenthesis that a listed name stands right before,
and takes the longest such name; so the matches depend on what names are listed, and on neither their
order nor their number, and a further name at most makes a match longer. -/
namespace CommitGate.Calls

/-- The parenthesis at `k` is called from `start`: the text from there up to it is a listed name, and
starts at a word boundary. -/
structure CalledFrom (names : List Text) (text : Text) (k start : Nat) : Prop where
  paren : text[k]? = some '('
  before : start ≤ k
  name : (text.take k).drop start ∈ alternatives names
  boundary : Text.atBoundary (text.take start).getLast? text[start]?

variable {names others : List Text} {text : Text} {k start : Nat} {span : Span}

theorem plain_of (h : ∀ name ∈ names, '(' ∉ name) : Plain names := by
  intro name hname
  rcases mem_of_mem_alternatives hname with rfl | hname
  · exact List.not_mem_nil
  · exact h name hname

theorem calledFrom_iff : CalledFrom names text k start ↔
    ∃ before call after, text = before ++ call ++ after ∧ start = before.length ∧
      k + 1 = before.length + call.length ∧ CallBetween names before call after := by
  constructor
  · rintro ⟨hparen, hle, hname, hboundary⟩
    obtain ⟨hlt, hchar⟩ := List.getElem?_eq_some_iff.mp hparen
    have hfront : text.take start ++ (text.take k).drop start = text.take k := by
      have hsplit := List.take_append_drop start (text.take k)
      rwa [List.take_take, Nat.min_eq_left hle] at hsplit
    have htext : text = text.take start ++ ((text.take k).drop start ++ ['(']) ++ text.drop (k + 1) := by
      rw [← List.append_assoc, hfront, List.append_assoc, List.singleton_append, ← hchar,
        ← List.drop_eq_getElem_cons hlt, List.take_append_drop]
    have hbehind : text.drop start = (text.take k).drop start ++ ['('] ++ text.drop (k + 1) :=
      List.append_cancel_left ((List.take_append_drop start text).trans
        (htext.trans (List.append_assoc _ _ _)))
    refine ⟨_, _, _, htext, ?_, ?_, ⟨_, hname, rfl⟩, ?_⟩
    · rw [List.length_take]
      omega
    · simp only [List.length_append, List.length_singleton, List.length_take, List.length_drop]
      omega
    · rwa [← hbehind, List.head?_drop]
  · rintro ⟨before, call, after, rfl, rfl, hk, ⟨name, hname, rfl⟩, hboundary⟩
    obtain rfl : k = (before ++ name).length := by
      simp only [List.length_append, List.length_singleton] at hk ⊢
      omega
    have htext : before ++ (name ++ ['(']) ++ after = before ++ name ++ '(' :: after := by simp
    have hstart : (before ++ (name ++ ['(']) ++ after)[before.length]? =
        (name ++ ['('] ++ after).head? := by
      rw [List.append_assoc, List.getElem?_append_right le_rfl, Nat.sub_self, List.head?_eq_getElem?]
    refine ⟨?_, ?_, ?_, ?_⟩
    · rw [htext, List.getElem?_append_right le_rfl, Nat.sub_self]
      rfl
    · rw [List.length_append]
      exact Nat.le_add_right _ _
    · rw [htext, List.take_left, List.drop_left]
      exact hname
    · rw [hstart, List.append_assoc, List.take_left]
      exact hboundary

theorem callAt?_pos {before : Option Char} {n : Nat} (h : callAt? names before text = some n) : 0 < n := by
  rw [callAt?] at h
  split at h
  · obtain ⟨name, _, rfl⟩ := Option.map_eq_some_iff.mp h
    exact Nat.succ_pos _
  · cases h

theorem le_start_of_mem_spansFrom (text : Text) : ∀ {offset pending : Nat} {before : Option Char},
    ∀ span ∈ spansFrom names offset before pending text,
      offset + pending ≤ span.start ∧ span.start < span.stop := by
  induction text with
  | nil =>
    intro offset pending before span h
    cases pending <;> cases h
  | cons c rest ih =>
    intro offset pending before span h
    cases pending with
    | succ p =>
      obtain ⟨hstart, hlt⟩ := ih span h
      exact ⟨by omega, hlt⟩
    | zero =>
      rw [spansFrom] at h
      split at h
      · rename_i n hn
        rcases List.mem_cons.mp h with rfl | h
        · exact ⟨le_rfl, Nat.lt_add_of_pos_right (callAt?_pos hn)⟩
        · obtain ⟨hstart, hlt⟩ := ih span h
          exact ⟨by omega, hlt⟩
      · obtain ⟨hstart, hlt⟩ := ih span h
        exact ⟨by omega, hlt⟩

theorem spansFrom_ordered (text : Text) : ∀ {offset pending : Nat} {before : Option Char},
    (spansFrom names offset before pending text).Pairwise fun a b => a.stop ≤ b.start := by
  induction text with
  | nil =>
    intro offset pending before
    cases pending <;> exact List.Pairwise.nil
  | cons c rest ih =>
    intro offset pending before
    cases pending with
    | succ p => exact ih
    | zero =>
      rw [spansFrom]
      split
      · rename_i n hn
        refine List.pairwise_cons.mpr ⟨fun span h => ?_, ih⟩
        have hstart := (le_start_of_mem_spansFrom rest span h).1
        have hpos := callAt?_pos hn
        dsimp only
        omega
      · exact ih

theorem spans_ordered (names : List Text) (text : Text) :
    (spans names text).Pairwise fun a b => a.stop ≤ b.start := spansFrom_ordered text

theorem start_lt_stop (h : span ∈ spans names text) : span.start < span.stop :=
  (le_start_of_mem_spansFrom text span h).2

theorem spans_stop_ascending (names : List Text) (text : Text) :
    (spans names text).Pairwise fun a b => a.stop < b.stop :=
  (spans_ordered names text).imp_of_mem fun _ hb hle => hle.trans_lt (start_lt_stop hb)

theorem eq_of_stop_eq {span' : Span} (h : span ∈ spans names text) (h' : span' ∈ spans names text)
    (hstop : span.stop = span'.stop) : span = span' := by
  have hnodup : ((spans names text).map Span.stop).Nodup := by
    rw [List.Nodup, List.pairwise_map]
    exact (spans_stop_ascending names text).imp ne_of_lt
  exact List.inj_on_of_nodup_map hnodup h h' hstop

theorem exists_span_of_calledFrom (hn : Plain names) (h : CalledFrom names text k start) :
    ∃ span ∈ spans names text, span.start ≤ start ∧ span.stop = k + 1 := by
  obtain ⟨before, call, after, htext, rfl, hk, hcall⟩ := calledFrom_iff.mp h
  obtain ⟨span, hspan, hstart, hstop⟩ := spans_complete hn htext hcall
  exact ⟨span, hspan, hstart, hstop.trans hk.symm⟩

theorem isLeast_start (hn : Plain names) (h : span ∈ spans names text) :
    ∃ k, span.stop = k + 1 ∧ IsLeast {start | CalledFrom names text k start} span.start := by
  obtain ⟨before, call, after, htext, rfl, hcall⟩ := spans_sound h
  have hpos := List.length_pos_iff.mpr hcall.ne_nil
  have hk : before.length + call.length - 1 + 1 = before.length + call.length := by omega
  refine ⟨before.length + call.length - 1, hk.symm, ?_, ?_⟩
  · exact calledFrom_iff.mpr ⟨before, call, after, htext, rfl, hk, hcall⟩
  · -- The match that ends there starts no later, and it is this one.
    intro start hstart
    obtain ⟨span', hspan', hle, hstop⟩ := exists_span_of_calledFrom hn hstart
    rwa [eq_of_stop_eq h hspan' (hk.symm.trans hstop.symm)]

/-- The matches are the called parentheses, each from the first place that it is called from. -/
theorem mem_spans_iff (hn : Plain names) : span ∈ spans names text ↔
    ∃ k, span.stop = k + 1 ∧ IsLeast {start | CalledFrom names text k start} span.start := by
  refine ⟨isLeast_start hn, ?_⟩
  rintro ⟨k, hstop, hleast⟩
  obtain ⟨span', hspan', _, hstop'⟩ := exists_span_of_calledFrom hn hleast.1
  obtain ⟨k', hk', hleast'⟩ := isLeast_start hn hspan'
  obtain rfl : k = k' := Nat.succ.inj (hstop'.symm.trans hk')
  have hsame : span = span' := by
    rw [Span.mk.injEq]
    exact ⟨hleast.unique hleast', hstop.trans hstop'.symm⟩
  exact hsame ▸ hspan'

theorem bijOn_stop (hn : Plain names) (text : Text) :
    Set.BijOn (fun span => span.stop - 1) {span | span ∈ spans names text}
      {k | ∃ start, CalledFrom names text k start} := by
  refine ⟨fun span h => ?_, fun span h span' h' hsame => ?_, fun k hk => ?_⟩
  · obtain ⟨k, hk, hleast⟩ := isLeast_start hn h
    refine ⟨span.start, ?_⟩
    dsimp only
    rw [hk, Nat.add_sub_cancel]
    exact hleast.1
  · have hpos := start_lt_stop h
    have hpos' := start_lt_stop h'
    dsimp only at hsame
    exact eq_of_stop_eq h h' (by omega)
  · obtain ⟨start, hstart⟩ := hk
    obtain ⟨span, hspan, _, hstop⟩ := exists_span_of_calledFrom hn hstart
    exact ⟨span, hspan, by dsimp only; rw [hstop, Nat.add_sub_cancel]⟩

theorem CalledFrom.mono (h : CalledFrom names text k start)
    (hsub : ∀ name ∈ alternatives names, name ∈ alternatives others) :
    CalledFrom others text k start := ⟨h.paren, h.before, hsub _ h.name, h.boundary⟩

theorem spans_congr (hn : Plain names)
    (hsame : ∀ name, name ∈ alternatives others ↔ name ∈ alternatives names) (text : Text) :
    spans others text = spans names text := by
  have hothers : Plain others := fun name hname => hn name ((hsame name).mp hname)
  have hcalled : ∀ k start, CalledFrom others text k start ↔ CalledFrom names text k start :=
    fun k start => ⟨fun h => h.mono fun name => (hsame name).mp,
      fun h => h.mono fun name => (hsame name).mpr⟩
  have hmem : ∀ span, span ∈ spans others text ↔ span ∈ spans names text := by
    intro span
    simp only [mem_spans_iff hothers, mem_spans_iff hn, hcalled]
  have hnodup : ∀ list, (spans list text).Nodup := by
    intro list
    apply (spans_stop_ascending list text).imp
    rintro a _ hlt rfl
    exact lt_irrefl _ hlt
  refine List.Perm.eq_of_pairwise ?_ (spans_stop_ascending others text)
    (spans_stop_ascending names text)
    ((List.perm_ext_iff_of_nodup (hnodup others) (hnodup names)).mpr hmem)
  intro a b _ _ hab hba
  exact absurd hab hba.asymm

/-- The matches of a scan are the called parentheses, one match each, from left to right, and each takes the
longest name. What counts is which names are listed, none at all as one empty name: in another order or
listed again they make the same matches, and beside further names every matched parenthesis stays one. A name
that is added to the empty list is so taken beside the empty name. -/
theorem matches_are_called_parentheses (hnames : ∀ name ∈ names, '(' ∉ name) (text : Text) :
    Set.BijOn (fun span => span.stop - 1) {span | span ∈ spans names text}
        {k | ∃ start, CalledFrom names text k start} ∧
      (spans names text).Pairwise (fun a b => a.stop ≤ b.start) ∧
      (∀ span ∈ spans names text, ∃ k, span.stop = k + 1 ∧
        IsLeast {start | CalledFrom names text k start} span.start) ∧
      (∀ others, (∀ name, name ∈ alternatives others ↔ name ∈ alternatives names) →
        spans others text = spans names text) ∧
      ∀ more, (∀ name ∈ more, '(' ∉ name) →
        (∀ name ∈ alternatives names, name ∈ alternatives more) →
        ∀ span ∈ spans names text, ∃ span' ∈ spans more text, span'.stop = span.stop := by
  have hn := plain_of hnames
  refine ⟨bijOn_stop hn text, spans_ordered names text, fun span => isLeast_start hn, ?_, ?_⟩
  · exact fun others hsame => spans_congr hn hsame text
  · intro more hmore hsub span hspan
    obtain ⟨k, hk, hleast⟩ := isLeast_start hn hspan
    obtain ⟨span', hspan', _, hstop⟩ :=
      exists_span_of_calledFrom (plain_of hmore) (hleast.1.mono hsub)
    exact ⟨span', hspan', hstop.trans hk.symm⟩

def nestedNames : List Text := ["r", "", "print-r", "t-r"].map String.toList

/-- The longest of three names is taken, also from a list turned round and doubled; and the parenthesis
behind the space, which is called by none, is passed over. -/
theorem nested_names_matched :
    (∀ name ∈ nestedNames, '(' ∉ name) ∧
      IsLeast {start | CalledFrom nestedNames "f print-r(1) (2)".toList 9 start} 2 ∧
      (¬∃ start, CalledFrom nestedNames "f print-r(1) (2)".toList 13 start) ∧
      spans (nestedNames ++ nestedNames).reverse "f print-r(1) (2)".toList = [⟨2, 10⟩] ∧
      ∃ span ∈ spans ("f".toList :: nestedNames) "f print-r(1) (2)".toList, span.stop = 10 := by
  have hnames : ∀ name ∈ nestedNames, '(' ∉ name := by decide
  have hspans : spans nestedNames "f print-r(1) (2)".toList = [⟨2, 10⟩] := by decide +kernel
  obtain ⟨hbij, _, hleast, hsame, hmore⟩ :=
    matches_are_called_parentheses hnames "f print-r(1) (2)".toList
  have hspan : ⟨2, 10⟩ ∈ spans nestedNames "f print-r(1) (2)".toList := by
    rw [hspans]
    exact List.mem_singleton_self _
  refine ⟨hnames, ?_, ?_, ?_, ?_⟩
  · obtain ⟨k, hk, hstart⟩ := hleast _ hspan
    obtain rfl : k = 9 := (Nat.succ.inj hk).symm
    exact hstart
  · intro hcalled
    obtain ⟨span, hmem, hstop⟩ := hbij.surjOn hcalled
    change span ∈ spans nestedNames _ at hmem
    rw [hspans, List.mem_singleton] at hmem
    rw [hmem] at hstop
    cases hstop
  · refine (hsame _ fun name => ?_).trans hspans
    change name ∈ (nestedNames ++ nestedNames).reverse ↔ name ∈ nestedNames
    rw [List.mem_reverse, List.mem_append, or_self]
  · exact hmore _ (by decide) (by decide) _ hspan

end CommitGate.Calls
