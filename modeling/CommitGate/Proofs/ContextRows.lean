import CommitGate.Proofs.Context
import Mathlib.Algebra.Order.Group.Abs
import Mathlib.Algebra.Order.Group.Int
import Mathlib.Data.List.Dedup

/-! A context read back. A row is the mark between two groups or starts with its number, and the separator
is the first character behind the digits; so whatever a line holds, a reader takes it neither for a number
nor for a mark, and comes to the lines that the context shows. -/
namespace CommitGate.Context

structure Entry where
  number : Nat
  separator : Char
  line : Text
  deriving DecidableEq, Repr

inductive Row where
  | gap
  | entry (e : Entry)
  deriving DecidableEq, Repr

def Row.written : Row → Text
  | .gap => ['-', '-']
  | .entry e => Text.ofNat e.number ++ e.separator :: e.line

def Row.entry? : Row → Option Entry
  | .gap => none
  | .entry e => some e

/-- Reads a row: the mark, or digits, the separator behind them and the rest. -/
def readRow (row : Text) : Option Row :=
  if row = ['-', '-'] then some .gap
  else match row.takeWhile Char.isDigit, row.dropWhile Char.isDigit with
    | digit :: more, separator :: line =>
      some (.entry ⟨Nat.ofDigitChars 10 (digit :: more) 0, separator, line⟩)
    | _, _ => none

/-- Reads a context row by row. One that is empty has no rows. -/
def readRows (context : Text) : Option (List Row) :=
  if context = [] then some [] else (context.splitOn '\n').mapM readRow

def entries (rows : List Row) : List Entry := rows.filterMap Row.entry?

/-- Marks stand between the entries whose numbers are not consecutive, one each, and nowhere else. -/
inductive Spaced : List Row → Prop where
  | nil : Spaced []
  | single (e : Entry) : Spaced [.entry e]
  | adjoin {a b : Entry} {rest : List Row} : b.number = a.number + 1 →
      Spaced (.entry b :: rest) → Spaced (.entry a :: .entry b :: rest)
  | jump {a b : Entry} {rest : List Row} : b.number ≠ a.number + 1 →
      Spaced (.entry b :: rest) → Spaced (.entry a :: .gap :: .entry b :: rest)

/-- What rows show of a text: the lines at most `width` away from a hit, once each and in order. -/
structure Shows (text : Text) (hits : List Int) (width : Int) (rows : List Row) : Prop where
  ascending : (entries rows).Pairwise fun a b => a.number < b.number
  near : ∀ n : Nat, (∃ e ∈ entries rows, e.number = n) ↔
    1 ≤ n ∧ n ≤ (Text.lines text).length ∧ ∃ hit ∈ hits, |hit - n| ≤ width
  line : ∀ e ∈ entries rows, (Text.lines text)[e.number - 1]? = some e.line
  separator : ∀ e ∈ entries rows, e.separator = if (e.number : Int) ∈ hits then ':' else '-'
  spaced : Spaced rows

/-- The numbers around a hit, as far as there are lines with them. -/
def window (width : Int) (count : Nat) (hit : Int) : List Int :=
  let first : Int := max 1 (hit - width)
  let last : Int := min count (hit + width)
  (List.range (last + 1 - first).toNat).map fun (i : Nat) => first + i

/-- The numbers around some hits, each once and in order. -/
def windows (hits : List Int) (width : Int) (count : Nat) : List Int :=
  (hits.flatMap (window width count)).dedup.mergeSort

variable {text : Text} {hits : List Int} {width : Int} {rows : List Row}

theorem readRow_entry {e : Entry} (h : e.separator.isDigit = false) :
    readRow (Row.entry e).written = some (.entry e) := by
  have hne : Text.ofNat e.number ≠ [] := Nat.toDigits_ne_nil
  obtain ⟨digit, more, hdigits⟩ := List.exists_cons_of_ne_nil hne
  have hfirst : digit.isDigit := Text.isDigit_of_mem_ofNat (hdigits ▸ List.mem_cons_self)
  have hmark : (Row.entry e).written ≠ ['-', '-'] := by
    intro he
    rw [Row.written, hdigits, List.cons_append] at he
    rw [(List.cons.inj he).1] at hfirst
    exact absurd hfirst (by decide)
  have hvalue : Nat.ofDigitChars 10 (Text.ofNat e.number) 0 = e.number :=
    Nat.ofDigitChars_ten_toDigits
  rw [readRow, if_neg hmark, Row.written, Text.takeWhile_isDigit_ofNat _ h,
    Text.dropWhile_isDigit_ofNat _ h]
  rw [hdigits] at hvalue ⊢
  dsimp only
  rw [hvalue]

def shownEntry (hits : List Int) (h : Calls.Hit) : Entry :=
  ⟨h.number, if (h.number : Int) ∈ hits then ':' else '-', h.line⟩

theorem entry_eq_written (hits : List Int) (h : Calls.Hit) :
    entry hits h = (Row.entry (shownEntry hits h)).written := by
  simp [entry, shownEntry, Row.written]

theorem separator_shownEntry (hits : List Int) (h : Calls.Hit) :
    (shownEntry hits h).separator.isDigit = false := by
  rw [shownEntry]
  dsimp only
  split <;> rfl

theorem exists_rows_after (hits : List Int) (shown : List Calls.Hit) : ∀ e : Entry,
    ∃ rows, entriesAfter hits (some e.number) shown = rows.map Row.written ∧
      Spaced (.entry e :: rows) ∧ entries rows = shown.map (shownEntry hits) := by
  induction shown with
  | nil =>
    intro e
    exact ⟨[], rfl, .single e, rfl⟩
  | cons h more ih =>
    intro e
    obtain ⟨rows, hrows, hspaced, hentries⟩ := ih (shownEntry hits h)
    have hbehind : entriesAfter hits (some h.number) more = rows.map Row.written := hrows
    rw [entriesAfter, entry_eq_written, hbehind, List.map_cons, ← hentries]
    by_cases hnext : h.number = e.number + 1
    · refine ⟨.entry (shownEntry hits h) :: rows, ?_, .adjoin hnext hspaced, rfl⟩
      simp [hnext]
    · refine ⟨.gap :: .entry (shownEntry hits h) :: rows, ?_, .jump hnext hspaced, rfl⟩
      simp [Ne.symm hnext, Row.written]

theorem exists_rows (hits : List Int) (shown : List Calls.Hit) :
    ∃ rows, entriesAfter hits none shown = rows.map Row.written ∧ Spaced rows ∧
      entries rows = shown.map (shownEntry hits) := by
  cases shown with
  | nil => exact ⟨[], rfl, .nil, rfl⟩
  | cons h more =>
    obtain ⟨rows, hrows, hspaced, hentries⟩ := exists_rows_after hits more (shownEntry hits h)
    have hbehind : entriesAfter hits (some h.number) more = rows.map Row.written := hrows
    refine ⟨.entry (shownEntry hits h) :: rows, ?_, hspaced, ?_⟩
    · rw [entriesAfter, entry_eq_written, hbehind]
      rfl
    · rw [List.map_cons, ← hentries]
      rfl

theorem mapM_readRow (h : ∀ row ∈ rows, readRow row.written = some row) :
    (rows.map Row.written).mapM readRow = some rows := by
  induction rows with
  | nil => rfl
  | cons row more ih =>
    obtain ⟨hrow, hmore⟩ := List.forall_mem_cons.mp h
    rw [List.map_cons, List.mapM_cons, hrow, ih hmore]
    rfl

theorem written_ne_nil (row : Row) : row.written ≠ [] := by
  cases row with
  | gap => exact List.cons_ne_nil _ _
  | entry e => exact List.append_ne_nil_of_right_ne_nil _ (List.cons_ne_nil _ _)

theorem readRows_unlines (hread : ∀ row ∈ rows, readRow row.written = some row)
    (hbreak : ∀ row ∈ rows, '\n' ∉ row.written) :
    readRows (Text.unlines (rows.map Row.written)) = some rows := by
  by_cases hne : rows = []
  · rw [hne]
    rfl
  have hpieces : (Text.unlines (rows.map Row.written)).splitOn '\n' = rows.map Row.written := by
    apply Text.splitOn_unlines
    · exact List.forall_mem_map.mpr hbreak
    · exact fun hnil => hne (List.map_eq_nil_iff.mp hnil)
  have hsome : Text.unlines (rows.map Row.written) ≠ [] := by
    intro hnil
    rw [hnil] at hpieces
    have hempty : [] ∈ rows.map Row.written := hpieces ▸ List.mem_singleton_self []
    obtain ⟨row, _, hrow⟩ := List.mem_map.mp hempty
    exact written_ne_nil row hrow
  rw [readRows, if_neg hsome, hpieces, mapM_readRow hread]

theorem mem_entries {e : Entry} : e ∈ entries rows ↔ .entry e ∈ rows := by
  rw [entries, List.mem_filterMap]
  constructor
  · rintro ⟨row, hrow, he⟩
    cases row with
    | gap => cases he
    | entry e' =>
      cases he
      exact hrow
  · intro he
    exact ⟨_, he, rfl⟩

theorem readRows_entriesAfter {shown : List Calls.Hit}
    (hentries : entries rows = shown.map (shownEntry hits)) (hline : ∀ h ∈ shown, '\n' ∉ h.line) :
    readRows (Text.unlines (rows.map Row.written)) = some rows := by
  have hrow : ∀ {e}, .entry e ∈ rows → ∃ h ∈ shown, shownEntry hits h = e := by
    intro e he
    exact List.mem_map.mp (hentries ▸ mem_entries.mpr he)
  apply readRows_unlines
  · intro row hmem
    cases row with
    | gap => rfl
    | entry e =>
      obtain ⟨h, _, rfl⟩ := hrow hmem
      exact readRow_entry (separator_shownEntry hits h)
  · intro row hmem
    cases row with
    | gap => decide
    | entry e =>
      obtain ⟨h, hshown, rfl⟩ := hrow hmem
      exact entry_eq_written hits h ▸ not_newline_mem_entry (hline h hshown)

theorem isShown_iff (n : Nat) : isShown hits width n ↔ ∃ hit ∈ hits, |hit - n| ≤ width := by
  rw [isShown, List.any_eq_true]
  refine exists_congr fun hit => and_congr_right fun _ => ?_
  rw [Bool.and_eq_true, decide_eq_true_eq, decide_eq_true_eq, abs_le]
  omega

theorem mem_shown_iff {h : Calls.Hit} :
    h ∈ (Calls.numberedLines text).filter (fun h => isShown hits width h.number) ↔
      (1 ≤ h.number ∧ (Text.lines text)[h.number - 1]? = some h.line) ∧
        ∃ hit ∈ hits, |hit - h.number| ≤ width := by
  rw [List.mem_filter, Calls.mem_numberedLines, List.mk_mem_zipIdx_iff_le_and_getElem?_sub,
    isShown_iff]

theorem mem_entries_shown
    (hentries : entries rows = ((Calls.numberedLines text).filter fun h =>
      isShown hits width h.number).map (shownEntry hits)) {e : Entry} :
    e ∈ entries rows ↔ (1 ≤ e.number ∧ (Text.lines text)[e.number - 1]? = some e.line) ∧
      (∃ hit ∈ hits, |hit - e.number| ≤ width) ∧
        e.separator = if (e.number : Int) ∈ hits then ':' else '-' := by
  rw [hentries, List.mem_map]
  constructor
  · rintro ⟨h, hshown, rfl⟩
    obtain ⟨hline, hnear⟩ := mem_shown_iff.mp hshown
    exact ⟨hline, hnear, rfl⟩
  · rintro ⟨hline, hnear, hseparator⟩
    refine ⟨⟨e.number, e.line⟩, mem_shown_iff.mpr ⟨hline, hnear⟩, ?_⟩
    rw [shownEntry, ← hseparator]

theorem exists_shows (text : Text) (hits : List Int) (width : Int) :
    ∃ rows, readRows (render text hits width) = some rows ∧ Shows text hits width rows := by
  obtain ⟨rows, hrows, hspaced, hentries⟩ := exists_rows hits
    ((Calls.numberedLines text).filter fun h => isShown hits width h.number)
  have hread : readRows (render text hits width) = some rows := by
    rw [render, hrows]
    apply readRows_entriesAfter hentries
    intro h hmem
    exact Text.not_mem_of_mem_lines (Calls.line_mem_of_numbered (List.mem_of_mem_filter hmem))
  have hshown : ∀ {e : Entry}, e ∈ entries rows ↔ _ := mem_entries_shown hentries
  refine ⟨rows, hread, ?_, ?_, ?_, ?_, hspaced⟩
  · rw [hentries, List.pairwise_map]
    exact (Calls.numberedLines_ascending text).filter _
  · intro n
    constructor
    · rintro ⟨e, he, rfl⟩
      obtain ⟨⟨hpos, hline⟩, hnear, _⟩ := hshown.mp he
      have hlast := (List.getElem?_eq_some_iff.mp hline).1
      exact ⟨hpos, Nat.le_of_pred_lt hlast, hnear⟩
    · rintro ⟨hpos, hlast, hnear⟩
      have hlt : n - 1 < (Text.lines text).length := by omega
      let e : Entry := ⟨n, if (n : Int) ∈ hits then ':' else '-', (Text.lines text)[n - 1]⟩
      exact ⟨e, hshown.mpr ⟨⟨hpos, List.getElem?_eq_getElem hlt⟩, hnear, rfl⟩, rfl⟩
  · intro e he
    exact (hshown.mp he).1.2
  · intro e he
    exact (hshown.mp he).2.2

theorem mem_window {count : Nat} {hit n : Int} :
    n ∈ window width count hit ↔ 1 ≤ n ∧ n ≤ count ∧ |hit - n| ≤ width := by
  simp only [window, List.mem_map, List.mem_range, abs_le]
  constructor
  · rintro ⟨i, hi, rfl⟩
    omega
  · intro h
    exact ⟨(n - max 1 (hit - width)).toNat, by omega, by omega⟩

theorem mem_windows {count : Nat} {n : Int} :
    n ∈ windows hits width count ↔ 1 ≤ n ∧ n ≤ count ∧ ∃ hit ∈ hits, |hit - n| ≤ width := by
  rw [windows, List.mem_mergeSort, List.mem_dedup, List.mem_flatMap]
  simp only [mem_window]
  tauto

theorem windows_ascending (hits : List Int) (width : Int) (count : Nat) :
    (windows hits width count).Pairwise (· < ·) := by
  have hsorted : (windows hits width count).Pairwise (· ≤ ·) := by
    refine (List.pairwise_mergeSort (fun a b c hab hbc => ?_) (fun a b => ?_) _).imp of_decide_eq_true
    · simp only [decide_eq_true_eq] at *
      omega
    · simp only [Bool.or_eq_true, decide_eq_true_eq]
      omega
  have hnodup : (windows hits width count).Nodup :=
    (List.mergeSort_perm _ _).nodup_iff.2 (List.nodup_dedup _)
  exact (hsorted.and hnodup).imp fun h => lt_of_le_of_ne h.1 h.2

/-- The reader comes to the lines of the windows. -/
theorem Shows.numbers (h : Shows text hits width rows) :
    (entries rows).map (fun e => (e.number : Int)) =
      windows hits width (Text.lines text).length := by
  have hascending : ((entries rows).map fun e => (e.number : Int)).Pairwise (· < ·) := by
    rw [List.pairwise_map]
    exact h.ascending.imp Int.ofNat_lt.mpr
  have hwindows := windows_ascending hits width (Text.lines text).length
  refine List.Perm.eq_of_pairwise (fun _ _ _ _ hab hba => absurd hab hba.asymm) hascending hwindows
    ((List.perm_ext_iff_of_nodup (hascending.imp ne_of_lt) (hwindows.imp ne_of_lt)).2 fun n => ?_)
  rw [List.mem_map, mem_windows]
  constructor
  · rintro ⟨e, he, rfl⟩
    obtain ⟨hpos, hlast, hnear⟩ := (h.near e.number).mp ⟨e, he, rfl⟩
    exact ⟨by omega, by omega, hnear⟩
  · rintro ⟨hpos, hlast, hnear⟩
    obtain ⟨m, rfl⟩ := Int.eq_ofNat_of_zero_le (by omega : 0 ≤ n)
    obtain ⟨e, he, rfl⟩ := (h.near m).mpr ⟨by omega, by omega, hnear⟩
    exact ⟨e, he, rfl⟩

theorem render_congr (text : Text) (width : Int) {hits' : List Int} (h : ∀ n, n ∈ hits' ↔ n ∈ hits) :
    render text hits' width = render text hits width := by
  have hshown : (fun l : Calls.Hit => isShown hits' width l.number) =
      fun l => isShown hits width l.number := by
    funext l
    rw [Bool.eq_iff_iff, isShown_iff, isShown_iff]
    simp only [h]
  have hentry : entry hits' = entry hits := by
    funext l
    rw [entry_eq_written, entry_eq_written, shownEntry, shownEntry]
    simp only [h]
  have hrows : ∀ (shown : List Calls.Hit) (previous : Option Nat),
      entriesAfter hits' previous shown = entriesAfter hits previous shown := by
    intro shown
    induction shown with
    | nil => intro previous; rfl
    | cons l more ih => intro previous; rw [entriesAfter, entriesAfter, ih, hentry]
  rw [render, render, hshown, hrows]

theorem Shows.colon_iff (h : Shows text hits width rows) (hwidth : 0 ≤ width) (n : Nat) :
    (∃ e ∈ entries rows, e.number = n ∧ e.separator = ':') ↔
      1 ≤ n ∧ n ≤ (Text.lines text).length ∧ (n : Int) ∈ hits := by
  constructor
  · rintro ⟨e, he, rfl, hcolon⟩
    obtain ⟨hpos, hlast, _⟩ := (h.near e.number).mp ⟨e, he, rfl⟩
    refine ⟨hpos, hlast, ?_⟩
    by_contra hno
    rw [h.separator e he, if_neg hno] at hcolon
    exact absurd hcolon (by decide)
  · rintro ⟨hpos, hlast, hhit⟩
    have hnear : |(n : Int) - n| ≤ width := by
      rw [sub_self, abs_zero]
      exact hwidth
    obtain ⟨e, he, rfl⟩ := (h.near n).mpr ⟨hpos, hlast, n, hhit, hnear⟩
    exact ⟨e, he, rfl, by rw [h.separator e he, if_pos hhit]⟩

/-- A context can be read back: the numbers ascend and are those of the lines near a hit, each with its
line and with a colon behind it exactly if it is a hit itself. So the hits within the text are recovered,
and the context goes by the set of its hits alone. -/
theorem reads_back (text : Text) (hits : List Int) (width : Int) :
    (∃ rows, readRows (render text hits width) = some rows ∧ Shows text hits width rows ∧
      (entries rows).map (fun e => (e.number : Int)) =
        windows hits width (Text.lines text).length ∧
      (0 ≤ width → ∀ n : Nat, (∃ e ∈ entries rows, e.number = n ∧ e.separator = ':') ↔
        1 ≤ n ∧ n ≤ (Text.lines text).length ∧ (n : Int) ∈ hits)) ∧
      ∀ hits' : List Int, (∀ n, n ∈ hits' ↔ n ∈ hits) →
        render text hits' width = render text hits width := by
  obtain ⟨rows, hread, hshows⟩ := exists_shows text hits width
  exact ⟨⟨rows, hread, hshows, hshows.numbers, hshows.colon_iff⟩,
    fun hits' => render_congr text width⟩

/-- Hits in any order and more than once, some outside the text, and a line that looks like a row. -/
theorem unordered_hits_read_back :
    (∃ rows, readRows (render "a\n2:b\n--\nd".toList [3, 9, 3, 0] 1) = some rows ∧
      ∃ e ∈ entries rows, e.number = 3 ∧ e.separator = ':') ∧
      render "a\n2:b\n--\nd".toList [0, 3, 9] 1 = render "a\n2:b\n--\nd".toList [3, 9, 3, 0] 1 := by
  obtain ⟨⟨rows, hread, _, _, hhits⟩, hsame⟩ := reads_back "a\n2:b\n--\nd".toList [3, 9, 3, 0] 1
  refine ⟨⟨rows, hread, (hhits (by decide) 3).mpr (by decide +kernel)⟩, hsame [0, 3, 9] fun n => ?_⟩
  simp only [List.mem_cons, List.not_mem_nil, or_false]
  omega

/-! The context of the calls in a text. -/

variable {names : List Text}

def hitsOf (names : List Text) (text : Text) : List Int :=
  (Calls.find names text).map fun h => (h.number : Int)

theorem exists_shows_calls (names : List Text) (text : Text) :
    ∃ rows, readRows (ofCalls names text) = some rows ∧ Shows text (hitsOf names text) Context.width rows :=
  exists_shows text (hitsOf names text) Context.width

theorem exists_hitsOf {p : Int → Prop} :
    (∃ hit ∈ hitsOf names text, p hit) ↔ ∃ h ∈ Calls.find names text, p h.number := by
  simp only [hitsOf, List.mem_map, exists_exists_and_eq_and]

theorem exists_mem_hitsOf {p : Int → Prop} : (∃ hit ∈ hitsOf names text, p hit) ↔
    ∃ (m : Nat) (line : Text), (line, m) ∈ (Text.lines text).zipIdx 1 ∧ Calls.occurIn names line ∧ p m := by
  simp only [exists_hitsOf, Calls.find, List.mem_filter, Calls.mem_numberedLines]
  constructor
  · rintro ⟨h, ⟨hline, hcall⟩, hp⟩
    exact ⟨h.number, h.line, hline, hcall, hp⟩
  · rintro ⟨m, line, hline, hcall, hp⟩
    exact ⟨⟨m, line⟩, ⟨hline, hcall⟩, hp⟩

theorem mem_hitsOf_iff {line : Text} {n : Nat} (hline : (line, n) ∈ (Text.lines text).zipIdx 1) :
    (n : Int) ∈ hitsOf names text ↔ Calls.occurIn names line := by
  have hhit : (n : Int) ∈ hitsOf names text ↔ ∃ hit ∈ hitsOf names text, hit = n := by
    rw [exists_eq_right]
  rw [hhit, exists_mem_hitsOf]
  constructor
  · rintro ⟨m, other, hother, hcall, hm⟩
    obtain rfl := Int.ofNat.inj hm
    rw [Text.numbered_unique hline hother]
    exact hcall
  · intro hcall
    exact ⟨n, line, hline, hcall, rfl⟩

theorem Shows.numbered (h : Shows text hits width rows) {e : Entry} (he : e ∈ entries rows) :
    (e.line, e.number) ∈ (Text.lines text).zipIdx 1 :=
  List.mk_mem_zipIdx_iff_le_and_getElem?_sub.mpr ⟨((h.near e.number).mp ⟨e, he, rfl⟩).1, h.line e he⟩

/-- A line of a text without its line comments is the line of the original up to its first one. -/
theorem exists_original {line : Text} {n : Nat}
    (h : (line, n) ∈ (Text.lines (LineComment.strip text)).zipIdx 1) :
    ∃ original, (original, n) ∈ (text.splitOn '\n').zipIdx 1 ∧ line = LineComment.cut original := by
  have hpiece := Text.piece_of_line h
  rw [LineComment.splitOn_strip, List.zipIdx_map] at hpiece
  obtain ⟨⟨original, m⟩, hmem, he⟩ := List.mem_map.mp hpiece
  obtain ⟨rfl, rfl⟩ := Prod.mk.inj he
  exact ⟨original, hmem, rfl⟩

theorem Shows.exists_colon (h : Shows text (hitsOf names text) Context.width rows) {hit : Calls.Hit}
    (hmem : hit ∈ Calls.find names text) :
    ∃ e ∈ entries rows, e.number = hit.number ∧ e.separator = ':' := by
  have hpos := List.le_snd_of_mem_zipIdx (Calls.mem_numberedLines.mp (List.mem_of_mem_filter hmem))
  exact (h.colon_iff (by decide) hit.number).mpr
    ⟨hpos, Calls.number_le_length hmem, List.mem_map_of_mem hmem⟩

theorem ofCalls_eq_nil_iff (names : List Text) (text : Text) :
    ofCalls names text = [] ↔ (Calls.find names text).isEmpty := by
  rw [List.isEmpty_iff]
  constructor
  · intro hnil
    rw [List.eq_nil_iff_forall_not_mem]
    intro h hmem
    obtain ⟨rows, hread, hshows⟩ := exists_shows_calls names text
    rw [hnil] at hread
    obtain rfl := Option.some.inj hread
    obtain ⟨e, he, _⟩ := hshows.exists_colon hmem
    exact List.not_mem_nil he
  · intro hnone
    have hempty : ∀ h ∈ Calls.numberedLines text, ¬isShown [] width h.number :=
      fun _ _ => Bool.noConfusion
    rw [ofCalls, hnone, render, List.map_nil,
      List.filter_eq_nil_iff.mpr hempty]
    rfl

/-- The context of the calls in a text without its line comments lists the lines near one that holds a
call: each once and in order, as it stands in the original before its first comment, told apart by whether
it holds a call itself. -/
theorem grep_of_original (names : List Text) (text : Text) :
    (∃ rows, readRows (ofCalls names (LineComment.strip text)) = some rows ∧ Spaced rows ∧
      (entries rows).Pairwise (fun a b => a.number < b.number) ∧
      (∀ n : Nat, (∃ e ∈ entries rows, e.number = n) ↔
        1 ≤ n ∧ n ≤ (Text.lines (LineComment.strip text)).length ∧
          ∃ (m : Nat) (line : Text), (line, m) ∈ (Text.lines (LineComment.strip text)).zipIdx 1 ∧
            Calls.occurIn names line ∧ |(m : Int) - n| ≤ 2) ∧
      (entries rows).map (fun e => (e.number : Int)) =
        windows (hitsOf names (LineComment.strip text)) 2
          (Text.lines (LineComment.strip text)).length ∧
      ∀ e ∈ entries rows, ∃ original, (original, e.number) ∈ (text.splitOn '\n').zipIdx 1 ∧
        e.line = LineComment.cut original ∧ LineComment.BeforeComment original e.line ∧
        e.separator = if Calls.occurIn names (LineComment.cut original) then ':' else '-') ∧
      (ofCalls names (LineComment.strip text) = [] ↔
        ∀ original ∈ text.splitOn '\n', Calls.occurIn names (LineComment.cut original) = false) := by
  constructor
  · obtain ⟨rows, hread, hshows⟩ := exists_shows_calls names (LineComment.strip text)
    refine ⟨rows, hread, hshows.spaced, hshows.ascending, fun n => ?_, hshows.numbers,
      fun e he => ?_⟩
    · rw [hshows.near, exists_mem_hitsOf]
      rfl
    · have hnumbered := hshows.numbered he
      obtain ⟨original, hmem, hcut⟩ := exists_original hnumbered
      refine ⟨original, hmem, hcut, LineComment.beforeComment_iff.mpr hcut, ?_⟩
      rw [hshows.separator e he, ← hcut]
      simp only [mem_hitsOf_iff hnumbered]
  · rw [ofCalls_eq_nil_iff, Calls.find_isEmpty_iff, LineComment.splitOn_strip, List.forall_mem_map]

end CommitGate.Context
