import CommitGate.Context
import CommitGate.Report
import CommitGate.Proofs.Lines

/-! The numbers that a block of debug code marks. Its rows come before the first rule, each begins with
its number, and the number of a matching line is told by the colon behind it. -/
namespace CommitGate

namespace Text

theorem isDigit_of_mem_ofNat {n : Nat} {c : Char} (h : c ∈ ofNat n) : c.isDigit :=
  Nat.isDigit_of_mem_toDigits (by decide) (by decide) h

theorem ofNat_injective {n m : Nat} (h : ofNat n = ofNat m) : n = m := by
  have hread : Nat.ofDigitChars 10 (ofNat n) 0 = Nat.ofDigitChars 10 (ofNat m) 0 := by rw [h]
  simpa only [ofNat, Nat.ofDigitChars_ten_toDigits] using hread

theorem takeWhile_isDigit_ofNat (n : Nat) {c : Char} (hc : c.isDigit = false) (rest : Text) :
    (ofNat n ++ c :: rest).takeWhile Char.isDigit = ofNat n := by
  rw [List.takeWhile_append_of_pos fun _ => isDigit_of_mem_ofNat,
    List.takeWhile_cons_of_neg (by simp [hc]), List.append_nil]

theorem dropWhile_isDigit_ofNat (n : Nat) {c : Char} (hc : c.isDigit = false) (rest : Text) :
    (ofNat n ++ c :: rest).dropWhile Char.isDigit = c :: rest := by
  rw [List.dropWhile_append_of_pos fun _ => isDigit_of_mem_ofNat,
    List.dropWhile_cons_of_neg (by simp [hc])]

theorem ofNat_append_cons_inj {n m : Nat} {c d : Char} {a b : Text} (hc : c.isDigit = false)
    (hd : d.isDigit = false) (h : ofNat n ++ c :: a = ofNat m ++ d :: b) :
    n = m ∧ c = d ∧ a = b := by
  have hnumber : ofNat n = ofNat m := by
    rw [← takeWhile_isDigit_ofNat n hc a, h, takeWhile_isDigit_ofNat m hd b]
  rw [hnumber, List.append_cancel_left_eq, List.cons.injEq] at h
  exact ⟨ofNat_injective hnumber, h⟩

theorem splitOn_unlines_cons (first next : Text) (more : List Text) :
    (unlines (first :: next :: more)).splitOn '\n' =
      first.splitOn '\n' ++ (unlines (next :: more)).splitOn '\n' := by
  rw [unlines, List.intercalate_cons_cons, List.append_assoc, List.singleton_append,
    splitOn_append_newline]
  rfl

theorem not_mem_of_mem_lines {text line : Text} (h : line ∈ lines text) : '\n' ∉ line :=
  not_mem_of_mem_splitOn ((lines_prefix_pieces text).subset h)

end Text

namespace Calls

theorem line_mem_of_numbered {text : Text} {h : Hit} (hm : h ∈ numberedLines text) :
    h.line ∈ Text.lines text := List.fst_mem_of_mem_zipIdx (mem_numberedLines.mp hm)

end Calls

namespace Context

variable {hits : List Int} {h : Calls.Hit}

theorem mem_entriesAfter {previous : Option Nat} {shown : List Calls.Hit} {row : Text} :
    row ∈ entriesAfter hits previous shown → row = ['-', '-'] ∨ ∃ h ∈ shown, row = entry hits h := by
  induction shown generalizing previous with
  | nil => simp [entriesAfter]
  | cons first more ih =>
    rw [entriesAfter, List.mem_append, List.mem_cons]
    rintro (hjump | rfl | hmore)
    · split at hjump
      · exact .inl (List.mem_singleton.1 hjump)
      · cases hjump
    · exact .inr ⟨first, List.mem_cons_self, rfl⟩
    · exact (ih hmore).imp_right fun ⟨h, hm, he⟩ => ⟨h, .tail _ hm, he⟩

theorem entry_mem_entriesAfter {previous : Option Nat} {shown : List Calls.Hit} (hm : h ∈ shown) :
    entry hits h ∈ entriesAfter hits previous shown := by
  induction shown generalizing previous with
  | nil => cases hm
  | cons first more ih =>
    rw [entriesAfter, List.mem_append, List.mem_cons]
    rcases List.mem_cons.1 hm with rfl | hm
    · exact .inr (.inl rfl)
    · exact .inr (.inr (ih hm))

theorem entry_marked_iff (n : Nat) :
    Text.ofNat n ++ [':'] <+: entry hits h ↔ h.number = n ∧ (h.number : Int) ∈ hits := by
  have hcolon : Char.isDigit ':' = false := rfl
  have hdash : Char.isDigit '-' = false := rfl
  constructor
  · rintro ⟨code, he⟩
    rw [List.append_assoc, List.singleton_append, entry] at he
    split at he
    · rename_i hc
      obtain ⟨rfl, _⟩ := Text.ofNat_append_cons_inj hcolon hcolon he
      exact ⟨rfl, by simpa using hc⟩
    · exact absurd (Text.ofNat_append_cons_inj hcolon hdash he).2.1 (by decide)
  · rintro ⟨rfl, hc⟩
    rw [entry, if_pos (by simpa using hc)]
    exact ⟨h.line, by simp⟩

theorem not_newline_mem_entry (hline : '\n' ∉ h.line) : '\n' ∉ entry hits h := by
  have hdigits : '\n' ∉ Text.ofNat h.number := fun hm => by
    simpa using Text.isDigit_of_mem_ofNat hm
  rw [entry, List.mem_append, List.mem_cons, not_or, not_or]
  refine ⟨hdigits, ?_, hline⟩
  split <;> decide

theorem entry_ne_rule : entry hits h ≠ Report.rule := by
  intro he
  obtain ⟨c, hc⟩ := List.exists_mem_of_ne_nil (Text.ofNat h.number) Nat.toDigits_ne_nil
  have hrule : c ∈ Report.rule := he ▸ List.mem_append_left _ hc
  rw [Report.rule, List.mem_replicate] at hrule
  have hdigit := Text.isDigit_of_mem_ofNat hc
  rw [hrule.2] at hdigit
  cases hdigit

end Context

namespace Report

/-- A block marks a number: before the first rule, a row has it with a colon behind. -/
def Marks (block : Text) (n : Nat) : Prop :=
  ∃ row ∈ (block.splitOn '\n').takeWhile (· ≠ rule), Text.ofNat n ++ [':'] <+: row

instance (block : Text) (n : Nat) : Decidable (Marks block n) :=
  inferInstanceAs (Decidable (∃ row ∈ _, _))

theorem rows_debugBlock {rows : List Text} (hbreak : ∀ row ∈ rows, '\n' ∉ row)
    (hrule : ∀ row ∈ rows, row ≠ rule) (hnil : ∀ row ∈ rows, row ≠ []) (language path : Text) :
    ((debugBlock (Text.unlines rows) language path).splitOn '\n').takeWhile (· ≠ rule) = rows := by
  have hstop : ∀ tail : List Text, ((Text.unlines (rule :: tail)).splitOn '\n').takeWhile
      (· ≠ rule) = [] := by
    intro tail
    have hhead : ((Text.unlines (rule :: tail)).splitOn '\n').head? = some rule := by
      cases tail with
      | nil => rfl
      | cons next more =>
        rw [Text.splitOn_unlines_cons]
        rfl
    obtain ⟨more, hm⟩ := List.head?_eq_some_iff.1 hhead
    rw [hm, List.takeWhile_cons_of_neg (by simp)]
  cases rows with
  | nil => exact hstop _
  | cons row more =>
    have hsome : (Text.unlines (row :: more)).isEmpty = false := by
      obtain ⟨c, rest, hrow⟩ := List.exists_cons_of_ne_nil (hnil row List.mem_cons_self)
      rw [hrow, Text.unlines]
      cases more with
      | nil => rfl
      | cons next more => rfl
    have hall : ∀ r ∈ row :: more, decide (r ≠ rule) := fun r hr => decide_eq_true (hrule r hr)
    rw [debugBlock, hsome, if_neg Bool.false_ne_true]
    rw [List.singleton_append, Text.splitOn_unlines_cons,
      Text.splitOn_unlines hbreak (List.cons_ne_nil _ _), List.takeWhile_append_of_pos hall, hstop,
      List.append_nil]

/-- Whatever the lines and the path hold, the numbers marked are those of the lines with a call. -/
theorem marks_debugBlock_iff (names : List Text) (text language path : Text) (n : Nat) :
    Marks (debugBlock (Context.ofCalls names text) language path) n ↔
      ∃ h ∈ Calls.find names text, h.number = n := by
  rw [Context.ofCalls, Context.render]
  generalize hhits : (Calls.find names text).map (fun h => (h.number : Int)) = hits
  generalize hshown : (Calls.numberedLines text).filter
    (fun h => Context.isShown hits Context.width h.number) = shown
  have hline : ∀ h ∈ shown, '\n' ∉ h.line := by
    rintro h hm
    rw [← hshown] at hm
    exact Text.not_mem_of_mem_lines (Calls.line_mem_of_numbered (List.mem_of_mem_filter hm))
  have hrows : ∀ row ∈ Context.entriesAfter hits none shown,
      '\n' ∉ row ∧ row ≠ rule ∧ row ≠ [] := by
    intro row hrow
    rcases Context.mem_entriesAfter hrow with rfl | ⟨h, hm, rfl⟩
    · decide
    · refine ⟨Context.not_newline_mem_entry (hline h hm), Context.entry_ne_rule, ?_⟩
      simp [Context.entry]
  rw [Marks, rows_debugBlock (fun row hr => (hrows row hr).1) (fun row hr => (hrows row hr).2.1)
    (fun row hr => (hrows row hr).2.2)]
  constructor
  · rintro ⟨row, hrow, hmark⟩
    rcases Context.mem_entriesAfter hrow with rfl | ⟨h, _, rfl⟩
    · have hcolon : ':' ∈ ['-', '-'] := hmark.subset (List.mem_append_right _ List.mem_cons_self)
      exact absurd hcolon (by decide)
    · obtain ⟨rfl, hhit⟩ := (Context.entry_marked_iff n).1 hmark
      rw [← hhits, List.mem_map] at hhit
      obtain ⟨h', hm', he⟩ := hhit
      exact ⟨h', hm', Int.ofNat.inj he⟩
  · rintro ⟨h, hm, rfl⟩
    have hhit : (h.number : Int) ∈ hits := hhits ▸ List.mem_map_of_mem hm
    have hmem : h ∈ shown := by
      rw [← hshown, List.mem_filter]
      refine ⟨List.mem_of_mem_filter hm, List.any_eq_true.2 ⟨_, hhit, ?_⟩⟩
      have hwidth : (0 : Int) ≤ Context.width := by decide
      simp only [Bool.and_eq_true, decide_eq_true_eq]
      omega
    exact ⟨_, Context.entry_mem_entriesAfter hmem, (Context.entry_marked_iff _).2 ⟨rfl, hhit⟩⟩

end Report

end CommitGate
