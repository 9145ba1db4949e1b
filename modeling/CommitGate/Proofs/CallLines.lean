import CommitGate.Proofs.Lines
import Mathlib.Data.List.Find

/-! Calls in a text and in its lines. No call reaches over a character that is part of no word and of
no call, so the scan behind it is that of a text of its own; and the lines that hold a call are those in
which a match of the whole text starts. -/
namespace CommitGate

namespace Text

def lineOf (text : Text) (offset : Nat) : Nat := (text.take offset).count '\n' + 1

theorem lineOf_first {line : Text} (h : '\n' ∉ line) {offset : Nat} (hle : offset ≤ line.length)
    (rest : Text) : lineOf (line ++ rest) offset = 1 := by
  rw [lineOf, List.take_append_of_le_length hle,
    List.count_eq_zero_of_not_mem fun hm => h (List.mem_of_mem_take hm)]

theorem lineOf_behind {line : Text} (h : '\n' ∉ line) (rest : Text) (offset : Nat) :
    lineOf (line ++ '\n' :: rest) (offset + (line.length + 1)) = lineOf rest offset + 1 := by
  have htake : (line ++ '\n' :: rest).take (offset + (line.length + 1)) =
      line ++ '\n' :: rest.take offset := by
    rw [Nat.add_comm offset, Nat.add_assoc, List.take_length_add_append, Nat.add_comm 1,
      List.take_succ_cons]
  rw [lineOf, htake, List.count_append, List.count_eq_zero_of_not_mem h, List.count_cons_self, lineOf]
  omega

theorem exists_numbered_cons {p : Text → Prop} {first : Text} {more : List Text} {n : Nat} :
    (∃ line, (line, n) ∈ (first :: more).zipIdx 1 ∧ p line) ↔
      n = 1 ∧ p first ∨ ∃ m, n = m + 1 ∧ ∃ line, (line, m) ∈ more.zipIdx 1 ∧ p line := by
  rw [List.zipIdx_cons, List.zipIdx_succ]
  constructor
  · rintro ⟨line, hline, hp⟩
    rcases List.mem_cons.mp hline with he | hline
    · obtain ⟨rfl, rfl⟩ := Prod.mk.inj he
      exact .inl ⟨rfl, hp⟩
    · obtain ⟨⟨_, m⟩, hm, he⟩ := List.mem_map.mp hline
      obtain ⟨rfl, rfl⟩ := Prod.mk.inj he
      exact .inr ⟨m, rfl, _, hm, hp⟩
  · rintro (⟨rfl, hp⟩ | ⟨m, rfl, line, hm, hp⟩)
    · exact ⟨first, List.mem_cons_self, hp⟩
    · exact ⟨line, List.mem_cons_of_mem _ (List.mem_map_of_mem hm), hp⟩

end Text

namespace Calls

/-- A character that divides a text for calls too: it is part of no word and of no call. -/
structure Divides (names : List Text) (sep : Char) : Prop where
  not_word : Text.isWord sep = false
  not_in_call : ∀ call, IsCall names call → sep ∉ call

def Span.shift (k : Nat) (span : Span) : Span := ⟨span.start + k, span.stop + k⟩

variable {names : List Text} {sep : Char} {before : Option Char} {text : Text} {n : Nat}

theorem length_of_callAt? (h : callAt? names before text = some n) : n ≤ text.length := by
  rw [callAt?] at h
  split at h
  · obtain ⟨name, hfind, rfl⟩ := Option.map_eq_some_iff.mp h
    have hprefix := List.find?_some hfind
    simpa using (List.isPrefixOf_iff_prefix.mp hprefix).length_le
  · cases h

namespace Divides

variable (h : Divides names sep)
include h

theorem find?_append (a b : Text) :
    (alternatives names).find? (fun name => (name ++ ['(']).isPrefixOf (a ++ sep :: b)) =
      (alternatives names).find? (fun name => (name ++ ['(']).isPrefixOf a) := by
  apply List.find?_congr
  intro name hname
  have hsep : sep ∉ name ++ ['('] := h.not_in_call _ ⟨name, hname, rfl⟩
  rw [Bool.eq_iff_iff, List.isPrefixOf_iff_prefix, List.isPrefixOf_iff_prefix]
  exact Text.prefix_append_cons_iff hsep a b

theorem callAt?_append (c : Char) (a b : Text) :
    callAt? names before (c :: (a ++ sep :: b)) = callAt? names before (c :: a) := by
  have hfind := h.find?_append (c :: a) b
  rw [List.cons_append] at hfind
  rw [callAt?, callAt?, hfind]
  rfl

theorem callAt?_sep (b : Text) : callAt? names before (sep :: b) = none := by
  have hnone : (alternatives names).find? (fun name => (name ++ ['(']).isPrefixOf (sep :: b)) = none := by
    rw [← List.nil_append (sep :: b), h.find?_append, List.find?_eq_none]
    intro name _
    cases name <;> simp
  rw [callAt?, hnone]
  exact ite_self none

theorem callAt?_behind (text : Text) : callAt? names (some sep) text = callAt? names none text := by
  have hword : Text.isWord? (some sep) = Text.isWord? none := h.not_word
  rw [callAt?, callAt?, Text.atBoundary, hword]
  rfl

theorem spansFrom_behind (offset : Nat) (text : Text) :
    spansFrom names offset (some sep) 0 text = spansFrom names offset none 0 text := by
  cases text with
  | nil => rfl
  | cons c rest => rw [spansFrom, spansFrom, h.callAt?_behind]

/-- The scan goes on behind a dividing character as if nothing had been before, since the match that it
may be in ends before that. -/
theorem spansFrom_append (b : Text) : ∀ (a : Text) {offset pending : Nat} {before : Option Char},
    pending ≤ a.length → spansFrom names offset before pending (a ++ sep :: b) =
      spansFrom names offset before pending a ++
        spansFrom names (offset + (a.length + 1)) none 0 b := by
  intro a
  induction a with
  | nil =>
    intro offset pending before hpending
    obtain rfl := Nat.le_zero.mp hpending
    rw [List.nil_append, spansFrom.eq_def]
    dsimp only
    rw [h.callAt?_sep]
    exact h.spansFrom_behind (offset + 1) b
  | cons c rest ih =>
    intro offset pending before hpending
    have hlater : ∀ {p : Nat}, p ≤ rest.length →
        spansFrom names (offset + 1) (some c) p (rest ++ sep :: b) =
          spansFrom names (offset + 1) (some c) p rest ++
            spansFrom names (offset + ((c :: rest).length + 1)) none 0 b := by
      intro p hp
      have hshift : offset + 1 + (rest.length + 1) = offset + ((c :: rest).length + 1) := by
        rw [List.length_cons]
        omega
      rw [ih hp, hshift]
    cases pending with
    | succ p => exact hlater (Nat.le_of_succ_le_succ hpending)
    | zero =>
      rw [List.cons_append, spansFrom, spansFrom, h.callAt?_append]
      cases hcall : callAt? names before (c :: rest) with
      | none => exact hlater (Nat.zero_le _)
      | some n =>
        have hlength : n - 1 ≤ rest.length := by
          have hle := length_of_callAt? hcall
          rw [List.length_cons] at hle
          omega
        exact congrArg (List.cons _) (hlater hlength)

end Divides

theorem spansFrom_shift (k : Nat) : ∀ (text : Text) {offset pending : Nat} {before : Option Char},
    spansFrom names (offset + k) before pending text =
      (spansFrom names offset before pending text).map (Span.shift k) := by
  intro text
  induction text with
  | nil =>
    intro offset pending before
    cases pending <;> rfl
  | cons c rest ih =>
    intro offset pending before
    have hlater : ∀ p, spansFrom names (offset + k + 1) (some c) p rest =
        (spansFrom names (offset + 1) (some c) p rest).map (Span.shift k) := by
      intro p
      rw [Nat.add_right_comm, ih]
    cases pending with
    | succ p => exact hlater p
    | zero =>
      rw [spansFrom, spansFrom]
      cases callAt? names before (c :: rest) with
      | none => exact hlater 0
      | some n =>
        rw [List.map_cons, Span.shift, Nat.add_right_comm offset n k]
        exact congrArg (List.cons _) (hlater _)

theorem spans_append_cons (h : Divides names sep) (a b : Text) :
    spans names (a ++ sep :: b) =
      spans names a ++ (spans names b).map (Span.shift (a.length + 1)) := by
  rw [spans, h.spansFrom_append b a (Nat.zero_le _), spansFrom_shift]
  rfl

theorem occurIn_append_cons (h : Divides names sep) (a b : Text) :
    occurIn names (a ++ sep :: b) ↔ occurIn names a ∨ occurIn names b := by
  simp only [occurIn_iff_exists, spans_append_cons h, List.mem_append, exists_or]
  exact or_congr_right ⟨fun ⟨_, hs⟩ => (List.mem_map.mp hs).imp fun _ => And.left,
    fun ⟨span, hs⟩ => ⟨_, List.mem_map_of_mem hs⟩⟩

theorem start_le_length {span : Span} (h : span ∈ spans names text) : span.start ≤ text.length := by
  obtain ⟨before, call, after, rfl, rfl, -⟩ := spans_sound h
  simp

theorem divides_of (hword : Text.isWord sep = false) (hparen : sep ≠ '(')
    (hnames : ∀ name ∈ names, sep ∉ name) : Divides names sep where
  not_word := hword
  not_in_call := by
    rintro call ⟨name, hname, rfl⟩ hmem
    rcases List.mem_append.mp hmem with hmem | hmem
    · rcases mem_of_mem_alternatives hname with rfl | hname
      · exact List.not_mem_nil hmem
      · exact hnames name hname hmem
    · exact hparen (List.mem_singleton.mp hmem)

/-- A match of the scan over the whole text starts in line `n`. -/
def StartsIn (names : List Text) (text : Text) (n : Nat) : Prop :=
  ∃ span ∈ spans names text, Text.lineOf text span.start = n

instance (names : List Text) (text : Text) (n : Nat) : Decidable (StartsIn names text n) :=
  inferInstanceAs (Decidable (∃ span ∈ _, _))

theorem startsIn_line {line : Text} (hline : '\n' ∉ line) :
    StartsIn names line n ↔ n = 1 ∧ occurIn names line := by
  have hone : ∀ span ∈ spans names line, Text.lineOf line span.start = 1 := by
    intro span hspan
    simpa using Text.lineOf_first hline (start_le_length hspan) []
  rw [occurIn_iff_exists]
  constructor
  · rintro ⟨span, hspan, rfl⟩
    exact ⟨hone span hspan, span, hspan⟩
  · rintro ⟨rfl, span, hspan⟩
    exact ⟨span, hspan, hone span hspan⟩

theorem startsIn_append (h : Divides names '\n') {line : Text} (hline : '\n' ∉ line) (rest : Text) :
    StartsIn names (line ++ '\n' :: rest) n ↔
      n = 1 ∧ occurIn names line ∨ ∃ m, n = m + 1 ∧ StartsIn names rest m := by
  have hfirst : ∀ span ∈ spans names line, Text.lineOf (line ++ '\n' :: rest) span.start =
      Text.lineOf line span.start := by
    intro span hspan
    have hle := start_le_length hspan
    rw [Text.lineOf_first hline hle, ← List.append_nil line, Text.lineOf_first hline hle]
  rw [← startsIn_line hline, StartsIn, spans_append_cons h]
  constructor
  · rintro ⟨span, hspan, rfl⟩
    rcases List.mem_append.mp hspan with hspan | hspan
    · exact .inl ⟨span, hspan, (hfirst span hspan).symm⟩
    · obtain ⟨own, hown, rfl⟩ := List.mem_map.mp hspan
      exact .inr ⟨_, Text.lineOf_behind hline rest own.start, own, hown, rfl⟩
  · rintro (⟨span, hspan, rfl⟩ | ⟨_, rfl, own, hown, rfl⟩)
    · exact ⟨span, List.mem_append_left _ hspan, hfirst span hspan⟩
    · exact ⟨_, List.mem_append_right _ (List.mem_map_of_mem hown),
        Text.lineOf_behind hline rest own.start⟩

/-- A match of the whole text starts in the lines that hold one by themselves. -/
theorem startsIn_iff (h : Divides names '\n') (text : Text) :
    StartsIn names text n ↔ ∃ line, (line, n) ∈ (text.splitOn '\n').zipIdx 1 ∧ occurIn names line := by
  have hpieces : ∀ pieces : List Text, (∀ piece ∈ pieces, '\n' ∉ piece) → pieces ≠ [] → ∀ n,
      (StartsIn names (Text.unlines pieces) n ↔
        ∃ line, (line, n) ∈ pieces.zipIdx 1 ∧ occurIn names line) := by
    intro pieces
    induction pieces with
    | nil => intro _ hne; exact absurd rfl hne
    | cons piece more ih =>
      intro hbreak _ n
      obtain ⟨hpiece, hmore⟩ := List.forall_mem_cons.mp hbreak
      rw [Text.exists_numbered_cons]
      cases more with
      | nil =>
        rw [Text.unlines, List.intercalate_singleton, startsIn_line hpiece]
        simp
      | cons next more =>
        have htext : Text.unlines (piece :: next :: more) =
            piece ++ '\n' :: Text.unlines (next :: more) := by
          rw [Text.unlines, List.intercalate_cons_cons, List.append_assoc]
          rfl
        rw [htext, startsIn_append h hpiece]
        simp only [ih hmore (List.cons_ne_nil _ _)]
  have htext := hpieces (text.splitOn '\n') (fun piece => Text.not_mem_of_mem_splitOn)
    (List.splitOn_ne_nil _ _) n
  rwa [Text.unlines, List.intercalate_splitOn] at htext

theorem occurIn_iff_find_ne_nil (h : Divides names '\n') (text : Text) :
    occurIn names text ↔ find names text ≠ [] := by
  rw [occurIn_iff_exists]
  constructor
  · rintro ⟨span, hspan⟩
    obtain ⟨line, hline⟩ := (startsIn_iff h text).mp ⟨span, hspan, rfl⟩
    exact List.ne_nil_of_mem (mem_find_iff.mpr hline : ⟨_, line⟩ ∈ find names text)
  · intro hne
    obtain ⟨hit, hmem⟩ := List.exists_mem_of_ne_nil _ hne
    obtain ⟨span, hspan, _⟩ := (startsIn_iff h text).mpr ⟨hit.line, mem_find_iff.mp hmem⟩
    exact ⟨span, hspan⟩

/-- The whole text holds a call exactly if one of its lines does, and the lines found are those in which a
match of the whole text starts: each once, by its number and with what it holds. -/
theorem find_iff_match_starts (hnames : ∀ name ∈ names, '\n' ∉ name) (text : Text) :
    (occurIn names text ↔ find names text ≠ []) ∧
      (find names text).Pairwise (fun a b => a.number < b.number) ∧
      ∀ n line, ⟨n, line⟩ ∈ find names text ↔
        (line, n) ∈ (text.splitOn '\n').zipIdx 1 ∧ StartsIn names text n := by
  have hdivides : Divides names '\n' := divides_of (by decide +kernel) (by decide) hnames
  refine ⟨occurIn_iff_find_ne_nil hdivides text, find_ascending names text, fun n line => ?_⟩
  rw [mem_find_iff, startsIn_iff hdivides]
  constructor
  · rintro ⟨hline, hcall⟩
    exact ⟨hline, line, hline, hcall⟩
  · rintro ⟨hline, other, hother, hcall⟩
    have hsame : line = other := Text.numbered_unique hline hother
    exact ⟨hline, hsame ▸ hcall⟩

def oddNames : List Text := ["", "a(b(", "alert"].map String.toList

/-- The first line holds two matches, and the last one behind a word. -/
theorem odd_names_found_where_matches_start :
    (∀ name ∈ oddNames, '\n' ∉ name) ∧
      ⟨1, "a(b((alert(0)".toList⟩ ∈ find oddNames "a(b((alert(0)\nalert\n(f()\n".toList ∧
      ⟨2, "alert".toList⟩ ∉ find oddNames "a(b((alert(0)\nalert\n(f()\n".toList ∧
      ⟨3, "(f()".toList⟩ ∈ find oddNames "a(b((alert(0)\nalert\n(f()\n".toList := by
  have hnames : ∀ name ∈ oddNames, '\n' ∉ name := by decide +kernel
  obtain ⟨_, _, hfound⟩ :=
    find_iff_match_starts hnames "a(b((alert(0)\nalert\n(f()\n".toList
  refine ⟨hnames, (hfound 1 _).mpr (by decide +kernel), ?_, (hfound 3 _).mpr (by decide +kernel)⟩
  intro hmem
  exact absurd ((hfound 2 _).mp hmem) (by decide +kernel)

end Calls

end CommitGate
