import CommitGate.Proofs.Reported

/-! How the syntax section shows a row of lint output. Every occurrence of the scratch directory goes, not
only the one in front of a path; so a path is shown as it is in the repository exactly if the directory's
name does not turn up again in it, or where the text behind it begins. -/
namespace CommitGate

namespace Text

section Remove

variable {part rest text a tail : Text} {c first : Char}

theorem removeFrom_append (part taken rest : Text) :
    removeFrom part taken.length (taken ++ rest) = remove part rest := by
  induction taken with
  | nil => rfl
  | cons c taken ih => exact ih

theorem remove_part_append (hne : part ≠ []) (rest : Text) :
    remove part (part ++ rest) = remove part rest := by
  obtain ⟨first, tail, rfl⟩ := List.exists_cons_of_ne_nil hne
  have hstart : (first :: tail).isPrefixOf (first :: (tail ++ rest)) :=
    List.isPrefixOf_iff_prefix.2 (List.prefix_append (first :: tail) rest)
  rw [remove, List.cons_append, removeFrom, if_pos hstart, List.length_cons, Nat.add_sub_cancel,
    removeFrom_append]

theorem remove_cons (h : ¬part <+: c :: rest) : remove part (c :: rest) = c :: remove part rest := by
  rw [remove, removeFrom, if_neg (mt List.isPrefixOf_iff_prefix.1 h)]
  rfl

/-- A part whose first character does not come again in it cannot start before an occurrence and reach
into it. -/
theorem remove_append_part (hfirst : first ∉ tail) (ha : ¬first :: tail <:+: a) (rest : Text) :
    remove (first :: tail) (a ++ (first :: tail) ++ rest) = a ++ remove (first :: tail) rest := by
  induction a with
  | nil => exact remove_part_append (List.cons_ne_nil _ _) rest
  | cons c a ih =>
    rw [List.infix_cons_iff, not_or] at ha
    have hstart : ¬first :: tail <+: c :: (a ++ (first :: tail) ++ rest) := by
      -- What starts at `c` would have to end before the next `first`, and so within `a`.
      intro h
      obtain ⟨rfl, htail⟩ := List.cons_prefix_cons.1 h
      rw [List.append_assoc, List.cons_append, prefix_append_cons_iff hfirst] at htail
      exact ha.1 (List.cons_prefix_cons.2 ⟨rfl, htail⟩)
    rw [List.cons_append, List.cons_append, remove_cons hstart, ih ha.2, List.cons_append]

theorem length_removeFrom_le (part text : Text) : ∀ pending,
    (removeFrom part pending text).length ≤ text.length := by
  induction text with
  | nil =>
    intro pending
    cases pending <;> exact le_rfl
  | cons c rest ih =>
    intro pending
    cases pending with
    | succ pending => exact (ih pending).trans (Nat.le_succ _)
    | zero =>
      rw [removeFrom]
      split
      · exact (ih _).trans (Nat.le_succ _)
      · exact Nat.succ_le_succ (ih 0)

theorem length_remove_lt (hne : part ≠ []) (h : part <:+: text) :
    (remove part text).length < text.length := by
  induction text with
  | nil => exact absurd (List.infix_nil.1 h) hne
  | cons c rest ih =>
    by_cases hstart : part <+: c :: rest
    · obtain ⟨more, hmore⟩ := hstart
      have hpos := List.length_pos_iff.2 hne
      have hle := length_removeFrom_le part more 0
      rw [← hmore, remove_part_append hne, List.length_append, remove]
      omega
    · rw [remove_cons hstart]
      exact Nat.succ_lt_succ (ih ((List.infix_cons_iff.1 h).resolve_left hstart))

theorem remove_eq_self_iff (hne : part ≠ []) : remove part text = text ↔ ¬part <:+: text := by
  constructor
  · intro h hin
    exact absurd (congrArg List.length h) (length_remove_lt hne hin).ne
  · intro h
    induction text with
    | nil => rfl
    | cons c rest ih =>
      rw [List.infix_cons_iff, not_or] at h
      rw [remove_cons h.1, ih h.2]

end Remove

section Rows

/-- `row` stands between `front` and `back` as a row of its own: no row end is in it, and one is on either
side of it unless the text ends there. -/
structure IsRow (front row back : Text) : Prop where
  ne_nil : row ≠ []
  unbroken : ∀ c ∈ row, isRowEnd c = false
  front_ends : ∀ c ∈ front.getLast?, isRowEnd c
  back_starts : ∀ c ∈ back.head?, isRowEnd c

variable {front row back rest text : Text} {c : Char}

theorem rows_cons (h : isRowEnd c = false) :
    rows (c :: rest) = (c :: (rows rest).headD []) :: (rows rest).tail := by
  rw [rows]
  · rw [if_neg (by simp [h])]
    cases rows rest <;> rfl
  · rintro more rfl
    exact absurd h (by decide)

theorem rows_cons_end (h : isRowEnd c) (hnext : c = '\r' → rest.head? ≠ some '\n') :
    rows (c :: rest) = [] :: rows rest := by
  rw [rows, if_pos h]
  rintro more rfl rfl
  exact hnext rfl rfl

theorem rows_ne_nil (c : Char) (rest : Text) : rows (c :: rest) ≠ [] := by
  cases h : isRowEnd c with
  | false =>
    rw [rows_cons h]
    exact List.cons_ne_nil _ _
  | true =>
    by_cases hpair : c = '\r' ∧ rest.head? = some '\n'
    · obtain ⟨rfl, hnext⟩ := hpair
      obtain ⟨more, rfl⟩ := List.head?_eq_some_iff.1 hnext
      exact List.cons_ne_nil _ _
    · rw [rows_cons_end h fun hc hnext => hpair ⟨hc, hnext⟩]
      exact List.cons_ne_nil _ _

/-- Behind rows that are all ended the text has rows of its own. The line feed is left out since it may
belong to a carriage return before it. -/
theorem rows_append_text (hfront : ∀ c ∈ front.getLast?, isRowEnd c) (htext : text.head? ≠ some '\n') :
    rows (front ++ text) = rows front ++ rows text := by
  fun_induction rows front with
  | case1 => rfl
  | case2 rest ih =>
    have hrest : ∀ c ∈ rest.getLast?, isRowEnd c := fun c hc =>
      hfront c (List.mem_getLast?_cons (List.mem_getLast?_cons hc))
    rw [List.cons_append, List.cons_append, rows, ih hrest]
    rfl
  | case3 c rest hpair hend ih =>
    have hrest : ∀ c ∈ rest.getLast?, isRowEnd c := fun c hc => hfront c (List.mem_getLast?_cons hc)
    have hnext : c = '\r' → (rest ++ text).head? ≠ some '\n' := by
      intro hc hhead
      cases rest with
      | nil => exact htext hhead
      | cons d rest => exact hpair rest hc (by rw [Option.some.inj hhead])
    rw [List.cons_append, rows_cons_end hend hnext, ih hrest]
    rfl
  | case4 c rest _ hend hnil _ =>
    cases rest with
    | nil => exact absurd (hfront c rfl) hend
    | cons d rest => exact absurd hnil (rows_ne_nil d rest)
  | case5 c rest _ hend row more hrows ih =>
    have hrest : ∀ c ∈ rest.getLast?, isRowEnd c := fun c hc => hfront c (List.mem_getLast?_cons hc)
    rw [List.cons_append, rows_cons (eq_false_of_ne_true hend), ih hrest, hrows]
    rfl

theorem rows_append (hne : row ≠ []) (hrow : ∀ c ∈ row, isRowEnd c = false) (back : Text) :
    rows (row ++ back) = (row ++ (rows back).headD []) :: (rows back).tail := by
  induction row with
  | nil => exact absurd rfl hne
  | cons c row ih =>
    obtain ⟨hc, hmore⟩ := List.forall_mem_cons.1 hrow
    rw [List.cons_append, rows_cons hc]
    cases row with
    | nil => rfl
    | cons d row =>
      rw [ih (List.cons_ne_nil _ _) hmore]
      rfl

theorem headD_rows (hback : ∀ c ∈ back.head?, isRowEnd c) : (rows back).headD [] = [] := by
  cases back with
  | nil => rfl
  | cons c rest =>
    by_cases hpair : c = '\r' ∧ rest.head? = some '\n'
    · obtain ⟨rfl, hnext⟩ := hpair
      obtain ⟨more, rfl⟩ := List.head?_eq_some_iff.1 hnext
      rfl
    · rw [rows_cons_end (hback c rfl) fun hc hnext => hpair ⟨hc, hnext⟩]
      rfl

theorem IsRow.rows_eq (h : IsRow front row back) :
    rows (front ++ row ++ back) = rows front ++ row :: (rows back).tail := by
  obtain ⟨c, more, rfl⟩ := List.exists_cons_of_ne_nil h.ne_nil
  have hhead : (c :: more ++ back).head? ≠ some '\n' := by
    intro hc
    rw [List.cons_append, List.head?_cons, Option.some.injEq] at hc
    exact absurd (h.unbroken c List.mem_cons_self) (by rw [hc]; decide)
  rw [List.append_assoc, rows_append_text h.front_ends hhead, rows_append h.ne_nil h.unbroken,
    headD_rows h.back_starts, List.append_nil]

end Rows

end Text

namespace Report

variable {f : Findings} {front row back : Text} {scratch : Path}

theorem lintRows_of_isRow (h : Text.IsRow front row back) (htelling : isTelling row) (scratch : Path) :
    lintRows scratch (front ++ row ++ back) = lintRows scratch front ++
      Text.remove (scratch.toText ++ [Path.slash]) row :: lintRows scratch back := by
  have hback : (Text.rows back).filter isTelling = (Text.rows back).tail.filter isTelling := by
    have hhead := Text.headD_rows h.back_starts
    cases hrows : Text.rows back with
    | nil => rfl
    | cons first more =>
      rw [hrows, List.headD_cons] at hhead
      rw [hhead]
      rfl
  rw [lintRows, lintRows, lintRows, h.rows_eq, List.filter_append, List.filter_cons_of_pos htelling,
    List.map_append, List.map_cons, hback]

/-- What stands in front of the path of a file where its copy is meant. -/
def copyMark : Text := Hook.scratchDirectory ++ [Path.slash]

theorem remove_copyMark {left : Text} (hleft : ¬copyMark <:+: left) (rest : Text) :
    Text.remove copyMark (left ++ copyMark ++ rest) = left ++ Text.remove copyMark rest := by
  have hmark : copyMark = '.' :: "validate_pre_commit/".toList := by decide
  rw [hmark] at hleft ⊢
  exact Text.remove_append_part (by decide) hleft rest

theorem exists_syntaxBlock (habort : f.abortRequested = true) (hprintable : f.Printable)
    {file output : Text} (hfile : file ∈ f.syntaxErrorFiles)
    (houtput : f.lintOutput.lookup file = some output) :
    ∃ report rows, render f = .ok report ∧
      report = Text.unlines (f.debugReports ++ [syntaxBlock rows, advice]) ∧
      lintRows f.scratch output <:+: rows := by
  obtain ⟨report, hreport⟩ := hprintable.render
  obtain ⟨rows, hrows, heq⟩ := render_eq habort hreport
  have hsome : f.syntaxErrorFiles.isEmpty = false :=
    List.isEmpty_eq_false_iff.2 (List.ne_nil_of_mem hfile)
  refine ⟨report, rows.flatten, hreport, ?_, ?_⟩
  · rw [heq, hsome, if_neg Bool.false_ne_true, List.append_assoc]
    rfl
  · exact List.infix_of_mem_flatten ((mem_lintRows hrows).2 ⟨file, hfile, output, houtput, rfl⟩)

/-- A telling row with the path of a copy in it is shown, at its place among the others, without the scratch
directory in front of the path. What follows is shown as it stands, so that the path is that of the file,
exactly if the directory does not stand in it once more. -/
theorem shown_as_written_iff (habort : f.abortRequested = true) (hprintable : f.Printable)
    (hscratch : f.scratch = Path.ofText Hook.scratchDirectory) {file output : Text}
    (hfile : file ∈ f.syntaxErrorFiles) (houtput : f.lintOutput.lookup file = some output)
    {front left path right back : Text}
    (hin : output = front ++ (left ++ copyMark ++ path ++ right) ++ back)
    (hrow : Text.IsRow front (left ++ copyMark ++ path ++ right) back)
    (htelling : isTelling (left ++ copyMark ++ path ++ right)) (hleft : ¬copyMark <:+: left) :
    ∃ report rows shown, render f = .ok report ∧
      report = Text.unlines (f.debugReports ++ [syntaxBlock rows, advice]) ∧
      lintRows f.scratch front ++ shown :: lintRows f.scratch back <:+: rows ∧
      (shown = left ++ path ++ right ↔ ¬copyMark <:+: path ++ right) := by
  obtain ⟨report, rows, hreport, heq, hrows⟩ := exists_syntaxBlock habort hprintable hfile houtput
  have hmark : f.scratch.toText ++ [Path.slash] = copyMark := by
    rw [hscratch]
    decide +kernel
  have hremoved : Text.remove copyMark (left ++ copyMark ++ path ++ right) =
      left ++ Text.remove copyMark (path ++ right) := by
    rw [List.append_assoc _ path, remove_copyMark hleft]
  rw [hin, lintRows_of_isRow hrow htelling, hmark, hremoved] at hrows
  refine ⟨report, rows, _, hreport, heq, hrows, ?_⟩
  rw [List.append_assoc, List.append_cancel_left_eq]
  exact Text.remove_eq_self_iff (List.cons_ne_nil _ _)

def rejected (path : Text) : Findings :=
  Check.withLint path ⟨255, ['\n'] ++ ("error in ".toList ++ copyMark ++ path ++ " on line 3".toList) ++
    ['\n']⟩ (Findings.fresh (Path.ofText Hook.scratchDirectory))

def similarPath : Text := "src/a.validate_pre_commit.php".toList

/-- A path with something like the scratch directory's name in it is shown whole. -/
theorem similar_path_shown :
    ∃ report rows, render (rejected similarPath) = .ok report ∧
      report = Text.unlines [syntaxBlock rows, advice] ∧
      "error in ".toList ++ similarPath ++ " on line 3".toList ∈ rows := by
  have hunbroken : ("error in ".toList ++ copyMark ++ similarPath ++ " on line 3".toList).any
      Text.isRowEnd = false := by decide +kernel
  have hends : ∀ c ∈ some '\n', Text.isRowEnd c := by
    rintro c ⟨⟩
    rfl
  have hrow : Text.IsRow ['\n'] ("error in ".toList ++ copyMark ++ similarPath ++ " on line 3".toList)
      ['\n'] :=
    ⟨by decide, fun c hc => eq_false_of_ne_true (List.any_eq_false.1 hunbroken c hc), hends, hends⟩
  have hprintable : (rejected similarPath).Printable := (Findings.printable_fresh _).withLint _ _
  have hfile : similarPath ∈ (rejected similarPath).syntaxErrorFiles := List.mem_singleton_self _
  obtain ⟨report, rows, shown, hreport, heq, hrows, hshown⟩ :=
    shown_as_written_iff rfl hprintable rfl hfile rfl rfl hrow (by decide +kernel) (by decide +kernel)
  rw [hshown.mpr (by decide +kernel)] at hrows
  exact ⟨report, rows, hreport, heq, hrows.subset (List.mem_append_right _ List.mem_cons_self)⟩

def nestedPath : Text := "x/.validate_pre_commit/a.php".toList

/-- The path of a file below a directory with the name of the scratch directory loses that name, and the
section has it nowhere. -/
theorem nested_path_shortened :
    ∃ rows, render (rejected nestedPath) = .ok (Text.unlines [syntaxBlock rows, advice]) ∧
      rows = ["error in x/a.php on line 3".toList] ∧ ¬nestedPath <:+: syntaxBlock rows :=
  ⟨["error in x/a.php on line 3".toList], rfl, rfl, by decide +kernel⟩

end Report

end CommitGate
