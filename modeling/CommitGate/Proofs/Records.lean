import CommitGate.Dialogue
import CommitGate.Proofs.Listing
import CommitGate.Proofs.Newline
import CommitGate.Proofs.Utf8

/-! The staged files as git lists them, record by record, and what is read back from the listing. A
record is told from the next by its field ends alone, so a path may hold anything else. -/
namespace CommitGate

open Session

namespace Text

theorem fields_intercalate {words : List Text}
    (h : ∀ word ∈ words, word ≠ [] ∧ ∀ c ∈ word, isBlank c = false) :
    fields ([' '].intercalate words) = words := by
  induction words with
  | nil => rfl
  | cons word more ih =>
    obtain ⟨⟨hne, hword⟩, hmore⟩ := List.forall_mem_cons.1 h
    have hkeep : (!word.isEmpty) = true := by simpa using hne
    cases more with
    | nil =>
      rw [List.intercalate_singleton, fields, List.splitOnP_eq_singleton hword, List.filter_cons,
        if_pos hkeep, List.filter_nil]
    | cons next rest =>
      rw [List.intercalate_cons_cons, List.append_assoc, List.singleton_append, fields,
        List.splitOnP_append_cons_of_forall_mem hword ' ' (by decide), List.filter_cons,
        if_pos hkeep]
      exact congrArg _ (ih hmore)

end Text

namespace Staged

/-- A staged file as git lists it, with its path as a text, or as the bytes that spell it. -/
structure Record (α : Type) where
  oldMode : Text
  newMode : Text
  oldId : Text
  newId : Text
  status : Text
  path : α

namespace Record

variable {α β : Type}

def mapPath (f : α → β) (r : Record α) : Record β :=
  ⟨r.oldMode, r.newMode, r.oldId, r.newId, r.status, f r.path⟩

/-- The words about a file. A colon leads the first. -/
def words (r : Record α) : List Text :=
  [':' :: r.oldMode, r.newMode, r.oldId, r.newId, r.status]

def header (r : Record α) : Text := [' '].intercalate r.words

def written (r : Record Text) : Text := r.header ++ fieldEnd :: (r.path ++ [fieldEnd])

/-- A word is not empty, and nothing in it divides words or fields. -/
def IsWord (word : Text) : Prop := word ≠ [] ∧ ∀ c ∈ word, Text.isBlank c = false ∧ c ≠ fieldEnd

def HasWords (r : Record α) : Prop :=
  ∀ word ∈ [r.oldMode, r.newMode, r.oldId, r.newId, r.status], IsWord word

-- Looks through the word alone: instance search may settle on trying every character there is.
instance : DecidablePred IsWord := fun word =>
  @instDecidableAnd (word ≠ []) _ inferInstance (List.decidableBAll _ word)

instance (r : Record α) : Decidable r.HasWords := inferInstanceAs (Decidable (∀ word ∈ _, _))

/-- A regular file with content: no symbolic link and no submodule, and its id is neither one of the
empty content nor all zeros. -/
def IsRegular (r : Record α) : Prop :=
  r.newMode ∉ skippedModes ∧ r.newId ∉ emptyBlobs ∧ ∃ c ∈ r.newId, c ≠ '0'

instance (r : Record α) : Decidable r.IsRegular :=
  @instDecidableAnd (r.newMode ∉ skippedModes) _ inferInstance
    (@instDecidableAnd (r.newId ∉ emptyBlobs) _ inferInstance (List.decidableBEx _ r.newId))

def regular (recs : List (Record α)) : List (Record α) := recs.filter (·.IsRegular)

theorem regular_map (f : α → β) (recs : List (Record α)) :
    regular (recs.map (mapPath f)) = (regular recs).map (mapPath f) := by
  rw [regular, List.filter_map]
  rfl

theorem isSkipped_eq_false_iff (r : Record α) :
    isSkipped r.newMode r.newId = false ↔ r.IsRegular := by
  simp [isSkipped, IsRegular, and_assoc]

theorem HasWords.isWord_words {r : Record α} (h : r.HasWords) : ∀ word ∈ r.words, IsWord word := by
  intro word hw
  rcases List.mem_cons.1 hw with rfl | hw
  · refine ⟨List.cons_ne_nil _ _, List.forall_mem_cons.2 ⟨by decide, ?_⟩⟩
    exact (h r.oldMode List.mem_cons_self).2
  · exact h word (.tail _ hw)

theorem HasWords.fields_header {r : Record α} (h : r.HasWords) : Text.fields r.header = r.words := by
  refine Text.fields_intercalate fun word hw => ?_
  obtain ⟨hne, hword⟩ := h.isWord_words word hw
  exact ⟨hne, fun c hc => (hword c hc).1⟩

theorem HasWords.not_mem_header {r : Record α} (h : r.HasWords) {c : Char}
    (hc : Text.isBlank c ∧ c ≠ ' ' ∨ c = fieldEnd) : c ∉ r.header := by
  have hspace : c ≠ ' ' := by
    rintro rfl
    revert hc
    decide
  have hword : ∀ word ∈ r.words, c ∉ word := by
    intro word hw hmem
    obtain ⟨hblank, hend⟩ := (h.isWord_words word hw).2 c hmem
    rcases hc with ⟨hb, _⟩ | he
    · rw [hblank] at hb
      cases hb
    · exact hend he
  rw [header, words]
  simp only [List.intercalate, List.intersperse, List.flatten_cons, List.flatten_nil, List.mem_append,
    List.mem_singleton, List.not_mem_nil, or_false, hspace, false_or]
  simp only [words, List.forall_mem_cons] at hword
  tauto

end Record

variable {recs : List (Record Text)}

theorem splitOn_append_fieldEnd {a : Text} (h : fieldEnd ∉ a) (b : Text) :
    (a ++ fieldEnd :: b).splitOn fieldEnd = a :: b.splitOn fieldEnd := by
  refine List.splitOnP_append_cons_of_forall_mem (fun c hc => ?_) fieldEnd (by decide) b
  rw [beq_eq_false_iff_ne]
  exact fun he => h (he ▸ hc)

theorem records_written (hwords : ∀ r ∈ recs, r.HasWords)
    (hpaths : ∀ r ∈ recs, fieldEnd ∉ r.path) :
    records ((recs.flatMap Record.written).splitOn fieldEnd) =
      recs.map fun r => (r.header, r.path) := by
  induction recs with
  | nil => rfl
  | cons r rest ih =>
    obtain ⟨hwords, hwords'⟩ := List.forall_mem_cons.1 hwords
    obtain ⟨hpath, hpaths'⟩ := List.forall_mem_cons.1 hpaths
    have hheader : fieldEnd ∉ r.header := hwords.not_mem_header (.inr rfl)
    rw [List.flatMap_cons, Record.written, List.append_assoc, List.cons_append, List.append_assoc,
      List.singleton_append, splitOn_append_fieldEnd hheader, splitOn_append_fieldEnd hpath, records,
      ih hwords' hpaths']
    rfl

theorem unifyNewlines_written (hwords : ∀ r ∈ recs, r.HasWords) :
    Text.unifyNewlines (recs.flatMap Record.written) =
      (recs.map (Record.mapPath Text.unifyNewlines)).flatMap Record.written := by
  have hend : fieldEnd ≠ '\r' ∧ fieldEnd ≠ '\n' := by decide
  induction recs with
  | nil => rfl
  | cons r rest ih =>
    obtain ⟨hwords, hwords'⟩ := List.forall_mem_cons.1 hwords
    have hheader : '\r' ∉ r.header := hwords.not_mem_header (.inl (by decide))
    rw [List.flatMap_cons, Record.written, List.append_assoc, List.cons_append, List.append_assoc,
      List.singleton_append, Text.unifyNewlines_append_cons hend.2, Text.unifyNewlines_cons hend.1,
      Text.unifyNewlines_append_cons hend.2, Text.unifyNewlines_cons hend.1,
      Text.unifyNewlines_eq_self_iff.2 hheader, ih hwords']
    simp [Record.written, Record.header, Record.words, Record.mapPath]

theorem select_records (hwords : ∀ r ∈ recs, r.HasWords) (s : Session) :
    ∃ log, select (recs.map fun r => (r.header, r.path)) s =
      .ok ((Record.regular recs).map Record.path) { s with log } := by
  induction recs generalizing s with
  | nil => exact ⟨s.log, rfl⟩
  | cons r rest ih =>
    obtain ⟨hwords, hwords'⟩ := List.forall_mem_cons.1 hwords
    rw [List.map_cons, select, hwords.fields_header]
    dsimp only [Record.words]
    by_cases hr : r.IsRegular
    · rw [(r.isSkipped_eq_false_iff).2 hr, Record.regular, List.filter_cons_of_pos (by simpa using hr)]
      obtain ⟨log, hrest⟩ := ih hwords' s
      exact ⟨log, bind_of_ok hrest⟩
    · have hskip : isSkipped r.newMode r.newId = true :=
        (Bool.not_eq_false _).mp fun hs => hr ((r.isSkipped_eq_false_iff).1 hs)
      rw [hskip, Record.regular, List.filter_cons_of_neg (by simpa using hr)]
      exact ih hwords' _

/-- A query comes back with status zero and this output. What the program complains about is text. -/
def Prints (programs : Programs) (q : Query) (output : Bytes) : Prop :=
  ∃ c, q.response programs = .completed c ∧ c.status = 0 ∧ c.output = output ∧
    (Utf8.read? c.errors).isSome

theorem run_of_prints {programs : Programs} {subcommand output : Text} {arguments : List Text}
    {s : Session} {bytes : Bytes}
    (h : Prints programs ⟨Git.command subcommand arguments, s.moment⟩ bytes)
    (hread : Utf8.read? bytes = some output) :
    Git.run programs subcommand arguments s =
      .ok output (s.asked programs (Git.command subcommand arguments)) := by
  obtain ⟨c, hc, hzero, rfl, herrors⟩ := h
  obtain ⟨errors, herrors⟩ := Option.isSome_iff_exists.1 herrors
  change (s.moment.ask programs (Git.command subcommand arguments)).1 = .completed c at hc
  rw [Git.run_eq, hc, Git.meaning, hread, herrors]
  dsimp only
  rw [if_pos hzero]
  rfl

def headCommand : Command := Git.command headWord ["--verify".toList, "-q".toList, Git.head]

def emptyTreeCommand : Command :=
  Git.command emptyTreeWord ["-t".toList, "tree".toList, "/dev/null".toList]

def comparisonCommand (base : Text) : Command :=
  Git.command comparisonWord [base, "--cached".toList, "-z".toList, "--diff-filter=d".toList]

/-- What a run finds to compare the staged files with: the last commit, or the empty tree by its id
where git fails on the last commit. -/
inductive FindsBase (programs : Programs) (s : Session) : Text → Session → Prop where
  | lastCommit (output : Text) :
      Git.meaning headWord (s.moment.ask programs headCommand).1 = .ok output →
      FindsBase programs s Git.head (s.asked programs headCommand)
  | emptyTree (failure : GitFailure) (id : Text) :
      Git.meaning headWord (s.moment.ask programs headCommand).1 = .error (.git failure) →
      Git.meaning emptyTreeWord
        ((s.asked programs headCommand).moment.ask programs emptyTreeCommand).1 = .ok id →
      FindsBase programs s (Text.trim id)
        ((s.asked programs headCommand).asked programs emptyTreeCommand)

variable {programs : Programs} {s t : Session} {base : Text}

theorem FindsBase.diffBase (h : FindsBase programs s base t) :
    Git.diffBase programs s = .ok base t := by
  have hhead : Git.run programs headWord ["--verify".toList, "-q".toList, Git.head] s =
      outcome (Git.meaning headWord (s.moment.ask programs headCommand).1)
        (s.asked programs headCommand) := Git.run_eq ..
  cases h with
  | lastCommit output hm =>
    rw [hm] at hhead
    exact bind_of_ok (attempt_of_ok hhead)
  | emptyTree failure id hm hid =>
    rw [hm] at hhead
    have hempty := Git.run_eq programs emptyTreeWord
      ["-t".toList, "tree".toList, "/dev/null".toList] (s.asked programs headCommand)
    rw [← emptyTreeCommand, hid] at hempty
    exact (bind_of_ok (attempt_of_git hhead)).trans (bind_of_ok hempty)

/-- Whatever the paths hold but a field end, the files listed are the regular ones with content, in
order, each by its path as a text is read. -/
theorem list_of_prints (hwords : ∀ r ∈ recs, r.HasWords) (hpaths : ∀ r ∈ recs, fieldEnd ∉ r.path)
    (hbase : FindsBase programs s base t)
    (hprints : Prints programs ⟨comparisonCommand base, t.moment⟩
      (Utf8.encode (recs.flatMap Record.written))) :
    ∃ s', list programs s =
      .ok ((Record.regular recs).map fun r => Text.unifyNewlines r.path) s' := by
  have hread : Utf8.read? (Utf8.encode (recs.flatMap Record.written)) =
      some (Text.unifyNewlines (recs.flatMap Record.written)) := by
    rw [Utf8.read?, Utf8.decode?_encode, Option.map_some]
  have hlist : list programs s = (select (records ((Text.unifyNewlines
      (recs.flatMap Record.written)).splitOn fieldEnd))) (t.asked programs (comparisonCommand base)) :=
    (bind_of_ok hbase.diffBase).trans (bind_of_ok (run_of_prints hprints hread))
  have hread' : ∀ r ∈ recs.map (Record.mapPath Text.unifyNewlines),
      r.HasWords ∧ fieldEnd ∉ r.path := by
    rw [List.forall_mem_map]
    exact fun r hr => ⟨hwords r hr, Text.not_mem_unifyNewlines_of_not_mem (by decide) (hpaths r hr)⟩
  obtain ⟨log, hselect⟩ := select_records (fun r hr => (hread' r hr).1)
    (t.asked programs (comparisonCommand base))
  rw [unifyNewlines_written hwords, records_written (fun r hr => (hread' r hr).1)
    (fun r hr => (hread' r hr).2)] at hlist
  have hfiles : (Record.regular (recs.map (Record.mapPath Text.unifyNewlines))).map Record.path =
      (Record.regular recs).map fun r => Text.unifyNewlines r.path := by
    rw [Record.regular_map, List.map_map]
    rfl
  rw [hfiles] at hselect
  exact ⟨_, hlist.trans hselect⟩

/-- Where no path holds a carriage return, the records come back as they were written, whichever
base they are compared with. -/
theorem records_read_back (hwords : ∀ r ∈ recs, r.HasWords)
    (hpaths : ∀ r ∈ recs, fieldEnd ∉ r.path ∧ '\r' ∉ r.path) (hbase : FindsBase programs s base t)
    (hprints : Prints programs ⟨comparisonCommand base, t.moment⟩
      (Utf8.encode (recs.flatMap Record.written))) :
    ∃ s', list programs s = .ok ((Record.regular recs).map Record.path) s' := by
  have hkept : ((Record.regular recs).map fun r => Text.unifyNewlines r.path) =
      (Record.regular recs).map Record.path := by
    refine List.map_congr_left fun r hr => ?_
    exact Text.unifyNewlines_eq_self_iff.2 (hpaths r (List.mem_of_mem_filter hr)).2
  rw [← hkept]
  exact list_of_prints hwords (fun r hr => (hpaths r hr).1) hbase hprints

def oddRecords : List (Record Text) :=
  [⟨"000000".toList, "100644".toList, "0000000".toList, "8e0a1c2".toList, "A".toList,
      ":100644 120000 8e0a 0000 M".toList⟩,
    ⟨"000000".toList, "120000".toList, "0000000".toList, "1f2e3d4".toList, "A".toList,
      "link.php".toList⟩,
    ⟨"000000".toList, "160000".toList, "0000000".toList, "5a6b7c8".toList, "A".toList,
      "vendor/lib".toList⟩,
    ⟨"000000".toList, "100644".toList, "0000000".toList,
      "e69de29bb2d1d6434b8b29ae775ad8c2e48c5391".toList, "A".toList, "empty.php".toList⟩,
    ⟨"000000".toList, "100644".toList, "0000000".toList, "0000000".toList, "A".toList,
      "later.php".toList⟩,
    ⟨"000000".toList, "100755".toList, "0000000".toList, "8e0a1c2".toList, "A".toList,
      " two words\nand a line.php".toList⟩]

def firstCommitPrograms : Programs :=
  Dialogue.programs [.completed ⟨1, [], []⟩ .nothing,
    .completed ⟨0, Utf8.encode "4b825dc6\n".toList, []⟩ .nothing,
    .completed ⟨0, Utf8.encode (oddRecords.flatMap Record.written), []⟩ .nothing]

theorem odd_records_read_back :
    ∃ s', list firstCommitPrograms Dialogue.start =
      .ok [":100644 120000 8e0a 0000 M".toList, " two words\nand a line.php".toList] s' := by
  have hwords : ∀ r ∈ oddRecords, r.HasWords := by decide +kernel
  have hpaths : ∀ r ∈ oddRecords, fieldEnd ∉ r.path ∧ '\r' ∉ r.path := by decide +kernel
  have hbase : FindsBase firstCommitPrograms Dialogue.start "4b825dc6".toList
      ((Dialogue.start.asked firstCommitPrograms headCommand).asked firstCommitPrograms
        emptyTreeCommand) :=
    .emptyTree (.exited headWord 1 []) "4b825dc6\n".toList rfl rfl
  obtain ⟨s', h⟩ := records_read_back hwords hpaths hbase ⟨_, rfl, rfl, rfl, rfl⟩
  have hregular : (Record.regular oddRecords).map Record.path =
      [":100644 120000 8e0a 0000 M".toList, " two words\nand a line.php".toList] := by decide +kernel
  exact ⟨s', hregular ▸ h⟩

end Staged

end CommitGate
