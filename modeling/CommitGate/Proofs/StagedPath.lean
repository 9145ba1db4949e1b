import CommitGate.Proofs.Complete
import CommitGate.Proofs.Records

/-! A staged path on its way from git's listing to the checkout that asks for it. The pipe between
them is read as text with one spelling of line ends, so a carriage return does not get through. -/
namespace CommitGate

open Session

namespace Gate

open Check

variable {programs : Programs} {linter : Linter} {scratch : Path} {extensions files : List Text}
  {check : Text → Path → Action Unit} {Clean : Path → Moment → Prop} {s s' : Session}

theorem inspect_asks {path : Text} (hcheck : ∀ copy t, Settles Clean copy t (check path copy t))
    (programs : Programs) (scratch : Path) (s : Session) :
    ∃ queries, Ran s (ending (inspect programs scratch check path s))
        (checkoutQuery scratch path s :: queries) ∧ ∀ q ∈ queries, AsksLinter q := by
  rw [inspect, bind_of_ok (show record _ _ s = .ok () _ from rfl), Staged.withCopy_eq]
  have hran := ran_asked programs (Staged.checkoutCommand scratch path) s
  split
  · exact ⟨[], hran, by simp⟩
  · obtain ⟨queries, hwork, hasks⟩ := (hcheck (scratch.child path) _).queries
    refine ⟨queries, hran.trans (ran_thenAlways hwork fun t => ?_), hasks⟩
    rcases Staged.remove_cases (scratch.child path) scratch t with ⟨tree, he⟩ | ⟨fault, he⟩ <;>
      rw [he] <;> rfl

theorem checkEach_asks (hcheck : ∀ path copy t, Settles Clean copy t (check path copy t))
    (programs : Programs) (scratch : Path) (extensions files : List Text) (s : Session) :
    ∃ queries, Ran s (ending (checkEach programs scratch extensions check files s)) queries ∧
      (checkouts queries).map Query.command <+:
        (due extensions files).map (Staged.checkoutCommand scratch) := by
  rw [checkEach_eq_forM]
  generalize due extensions files = paths
  induction paths generalizing s with
  | nil => exact ⟨[], Ran.none rfl, List.prefix_refl _⟩
  | cons path rest ih =>
    obtain ⟨queries, hran, hasks⟩ := inspect_asks (hcheck path) programs
      scratch s
    have hfirst := checkouts_cons scratch path s hasks
    cases hi : inspect programs scratch check path s with
    | error fault t =>
      rw [hi] at hran
      have hend : (path :: rest).forM (inspect programs scratch check) s = .error fault t :=
        bind_of_error hi
      rw [hend]
      refine ⟨_, hran, ?_⟩
      rw [hfirst]
      exact ⟨rest.map (Staged.checkoutCommand scratch), rfl⟩
    | ok _ t =>
      rw [hi] at hran
      have hend : (path :: rest).forM (inspect programs scratch check) s =
          rest.forM (inspect programs scratch check) t := bind_of_ok hi
      rw [hend]
      obtain ⟨more, hran', hprefix⟩ := ih t
      refine ⟨_, hran.trans hran', ?_⟩
      rw [checkouts_append, hfirst, List.singleton_append, List.map_cons, List.map_cons,
        List.prefix_cons_iff]
      exact .inr ⟨_, rfl, hprefix⟩

theorem run_asks (programs : Programs) (linter : Linter) (scratch : Path) (files : List Text)
    (s : Session) :
    ∃ queries, Ran s (ending (run programs linter scratch files s)) queries ∧
      (checkouts queries).map Query.command <+:
        (due phpExtensions files ++ due scriptExtensions files).map
          (Staged.checkoutCommand scratch) := by
  rw [List.map_append]
  rcases run_cases programs linter scratch files s with ⟨refusal, tree, he⟩ | ⟨tree, he⟩
  · have hran : Ran s (ending (run programs linter scratch files s)) [] := by
      rw [he]
      exact Ran.none rfl
    exact ⟨[], hran, List.nil_prefix⟩
  rw [he]
  generalize hstart : ({ s with tree, findings := Findings.fresh scratch } : Session) = t
  have hran : Ran s t [] := by
    rw [← hstart]
    exact Ran.none rfl
  cases hp : checkEach programs scratch phpExtensions (php programs linter) files t with
  | error fault t' =>
    obtain ⟨queries, hphp, hprefix⟩ := checkEach_asks (php_settles programs linter)
      programs scratch phpExtensions files t
    rw [hp] at hphp
    rw [bind_of_error hp]
    exact ⟨queries, hran.trans hphp, hprefix.trans (List.prefix_append _ _)⟩
  | ok _ t' =>
    rw [bind_of_ok hp]
    obtain ⟨forPhp, hphp, _, hcommands, _⟩ := checkEach_ok (php_settles programs linter) hp
    obtain ⟨forScripts, hscripts, hprefix⟩ := checkEach_asks script_settles programs scratch
      scriptExtensions files t'
    refine ⟨forPhp ++ forScripts, ?_, ?_⟩
    · have hall := hran.trans (hphp.trans hscripts)
      cases hs : checkEach programs scratch scriptExtensions script files t' with
      | error fault t'' =>
        rw [hs] at hall
        rw [bind_of_error hs]
        exact hall
      | ok _ t'' =>
        rw [hs] at hall
        rw [bind_of_ok hs]
        exact hall
    · rw [checkouts_append, List.map_append, hcommands]
      exact (List.prefix_append_right_inj _).2 hprefix

theorem commands_of_run {findings : Findings}
    (h : run programs linter scratch files s = .ok findings s') :
    (checkouts (queriesBetween s s')).map Query.command =
      (due phpExtensions files ++ due scriptExtensions files).map
        (Staged.checkoutCommand scratch) := by
  obtain ⟨s₀, t, hprepare, hphp, hscripts, rfl⟩ := passes_of_run h
  obtain ⟨forPhp, hran, _, hcommands, _⟩ := checkEach_ok (php_settles programs linter) hphp
  obtain ⟨forScripts, hran', _, hcommands', _⟩ := checkEach_ok script_settles hscripts
  have hall : Ran s s' (forPhp ++ forScripts) :=
    (ran_prepare hprepare _).trans (hran.trans hran')
  rw [hall.queriesBetween_eq, checkouts_append, List.map_append, List.map_append, hcommands,
    hcommands']

end Gate

namespace Staged

open Gate Session

/-- How git prints a record: its words as a text, and its path byte for byte. -/
def Record.printed (r : Record Bytes) : Bytes := Utf8.encode r.header ++ 0 :: (r.path ++ [0])

def Record.asText (r : Record Bytes) : Record Text := r.mapPath Utf8.decodeLossy

/-- A path that a file name may have: it is UTF-8, and no byte in it is zero. -/
def IsPathBytes (path : Bytes) : Prop := 0 ∉ path ∧ (Utf8.decode? path).isSome

variable {programs : Programs} {s t : Session} {base : Text} {recs : List (Record Bytes)}

theorem IsPathBytes.encode_decodeLossy {path : Bytes} (h : IsPathBytes path) :
    Utf8.encode (Utf8.decodeLossy path) = path := by
  obtain ⟨text, htext⟩ := Option.isSome_iff_exists.1 h.2
  rw [Utf8.decode?_eq_some_iff] at htext
  rw [htext, Utf8.decodeLossy_encode]

theorem IsPathBytes.mem_decodeLossy {path : Bytes} (h : IsPathBytes path) (byte : UInt8)
    (hbyte : byte.toNat < 0x80) :
    Char.ofNat byte.toNat ∈ Utf8.decodeLossy path ↔ byte ∈ path := by
  rw [← Utf8.mem_encode_iff hbyte, h.encode_decodeLossy]

theorem IsPathBytes.encode_unifyNewlines_iff {path : Bytes} (h : IsPathBytes path) :
    Utf8.encode (Text.unifyNewlines (Utf8.decodeLossy path)) = path ↔ 0x0D ∉ path := by
  have hmem := h.mem_decodeLossy 0x0D (by decide)
  rw [← hmem]
  refine Iff.trans ⟨fun he => ?_, fun he => ?_⟩ Text.unifyNewlines_eq_self_iff
  · exact Utf8.encode_injective (he.trans h.encode_decodeLossy.symm)
  · rw [he, h.encode_decodeLossy]

theorem encode_written (hpaths : ∀ r ∈ recs, IsPathBytes r.path) :
    Utf8.encode ((recs.map Record.asText).flatMap Record.written) = recs.flatMap Record.printed := by
  induction recs with
  | nil => rfl
  | cons r rest ih =>
    obtain ⟨hpath, hpaths⟩ := List.forall_mem_cons.1 hpaths
    rw [List.map_cons, List.flatMap_cons, List.flatMap_cons, Utf8.encode_append, ih hpaths]
    congr 1
    rw [Record.written, Record.printed, Utf8.encode_append, ← List.singleton_append,
      Utf8.encode_append, Utf8.encode_append]
    have hpath' : Utf8.encode r.asText.path = r.path := hpath.encode_decodeLossy
    rw [hpath']
    rfl

def Record.received (r : Record Bytes) : Text := Text.unifyNewlines (Utf8.decodeLossy r.path)

theorem list_of_printed (hwords : ∀ r ∈ recs, r.HasWords) (hpaths : ∀ r ∈ recs, IsPathBytes r.path)
    (hbase : FindsBase programs s base t)
    (hprints : Prints programs ⟨comparisonCommand base, t.moment⟩
      (recs.flatMap Record.printed)) :
    ∃ s', list programs s = .ok ((Record.regular recs).map Record.received) s' := by
  have hwords' : ∀ r ∈ recs.map Record.asText, r.HasWords := List.forall_mem_map.2 hwords
  have hpaths' : ∀ r ∈ recs.map Record.asText, fieldEnd ∉ r.path := by
    refine List.forall_mem_map.2 fun r hr => ?_
    have hmem := (hpaths r hr).mem_decodeLossy 0 (by decide)
    exact fun hend => (hpaths r hr).1 (hmem.1 hend)
  rw [← encode_written hpaths] at hprints
  obtain ⟨s', h⟩ := list_of_prints hwords' hpaths' hbase hprints
  have hfiles : ((Record.regular (recs.map Record.asText)).map fun r => Text.unifyNewlines r.path) =
      (Record.regular recs).map Record.received := by
    change (Record.regular (recs.map (Record.mapPath Utf8.decodeLossy))).map _ = _
    rw [Record.regular_map, List.map_map]
    rfl
  exact ⟨s', hfiles ▸ h⟩

/-- A checkout of a received path is for the staged one exactly if that has no carriage return. -/
theorem checkout_received_iff {linter : Linter} {scratch : Path} {findings : Findings}
    {s' s'' : Session} (hpaths : ∀ r ∈ recs, IsPathBytes r.path)
    (hrun : Gate.run programs linter scratch ((Record.regular recs).map Record.received) s' =
      .ok findings s'') {r : Record Bytes} (hr : r ∈ Record.regular recs)
    (hdue : hasExtension (phpExtensions ++ scriptExtensions) (Utf8.decodeLossy r.path)) :
    (∃ q ∈ checkouts (queriesBetween s' s''), Utf8.encode (checkedPath q) = r.path) ↔
      0x0D ∉ r.path := by
  have hcommands := commands_of_run hrun
  have hpath : IsPathBytes r.path := hpaths r (List.mem_of_mem_filter hr)
  constructor
  · rintro ⟨q, hq, he⟩
    have hcommand := List.mem_map_of_mem (f := Query.command) hq
    rw [hcommands] at hcommand
    obtain ⟨file, hfile, hcommand⟩ := List.mem_map.1 hcommand
    obtain ⟨r', -, rfl⟩ : ∃ r' ∈ Record.regular recs, r'.received = file := by
      rcases List.mem_append.1 hfile with hfile | hfile <;>
        exact List.mem_map.1 (List.mem_of_mem_filter hfile)
    rw [← he, checkedPath_checkout hcommand.symm, Utf8.mem_encode_iff (by decide)]
    exact Text.not_mem_unifyNewlines _
  · intro hcr
    have hkept : Utf8.encode r.received = r.path := hpath.encode_unifyNewlines_iff.2 hcr
    have hsame : r.received = Utf8.decodeLossy r.path :=
      Utf8.encode_injective (hkept.trans hpath.encode_decodeLossy.symm)
    have hmem : r.received ∈ (Record.regular recs).map Record.received := List.mem_map_of_mem hr
    have hasked : Staged.checkoutCommand scratch r.received ∈
        (checkouts (queriesBetween s' s'')).map Query.command := by
      rw [hcommands]
      refine List.mem_map_of_mem (List.mem_append.2 ?_)
      rw [hasExtension, List.any_append, Bool.or_eq_true, ← hsame] at hdue
      exact hdue.imp (fun h => List.mem_filter.2 ⟨hmem, h⟩) fun h => List.mem_filter.2 ⟨hmem, h⟩
    obtain ⟨q, hq, hcommand⟩ := List.mem_map.1 hasked
    exact ⟨q, hq, by rw [checkedPath_checkout hcommand, hkept]⟩

/-- The regular files are listed one for one, and exactly the paths with a carriage return among
their bytes do not come back: the others stay apart and are checked out by their own names. -/
theorem staged_path_kept_iff (hwords : ∀ r ∈ recs, r.HasWords)
    (hpaths : ∀ r ∈ recs, IsPathBytes r.path) (hbase : FindsBase programs s base t)
    (hprints : Prints programs ⟨comparisonCommand base, t.moment⟩
      (recs.flatMap Record.printed)) :
    ∃ s', list programs s = .ok ((Record.regular recs).map Record.received) s' ∧
      (∀ r ∈ Record.regular recs, Utf8.encode r.received = r.path ↔ 0x0D ∉ r.path) ∧
      (∀ r ∈ Record.regular recs, ∀ r' ∈ Record.regular recs, 0x0D ∉ r.path → 0x0D ∉ r'.path →
        r.path ≠ r'.path → r.received ≠ r'.received) ∧
      ∀ linter scratch,
        let files := (Record.regular recs).map Record.received
        let r := Gate.run programs linter scratch files s'
        (checkouts (queriesBetween s' (ending r))).map Query.command <+:
            (due phpExtensions files ++ due scriptExtensions files).map (checkoutCommand scratch) ∧
          ∀ findings s'', r = .ok findings s'' → ∀ r ∈ Record.regular recs,
            hasExtension (phpExtensions ++ scriptExtensions) (Utf8.decodeLossy r.path) →
            ((∃ q ∈ checkouts (queriesBetween s' s''), Utf8.encode (checkedPath q) = r.path) ↔
              0x0D ∉ r.path) := by
  obtain ⟨s', hlist⟩ := list_of_printed hwords hpaths hbase hprints
  have hkept : ∀ r ∈ Record.regular recs, Utf8.encode r.received = r.path ↔ 0x0D ∉ r.path :=
    fun r hr => (hpaths r (List.mem_of_mem_filter hr)).encode_unifyNewlines_iff
  refine ⟨s', hlist, hkept, ?_, fun linter scratch => ⟨?_, ?_⟩⟩
  · intro r hr r' hr' hcr hcr' hne he
    apply hne
    rw [← (hkept r hr).2 hcr, ← (hkept r' hr').2 hcr', he]
  · obtain ⟨queries, hran, hprefix⟩ := run_asks programs linter scratch
      ((Record.regular recs).map Record.received) s'
    rw [hran.queriesBetween_eq]
    exact hprefix
  · exact fun findings s'' hrun r hr hdue => checkout_received_iff hpaths hrun hr hdue

def newFile (name : String) : Record Bytes :=
  ⟨"000000".toList, "100644".toList, "0000000".toList, "8e0a1c2".toList, "A".toList,
    Utf8.encode name.toList⟩

def listing (files : List (Record Bytes)) : Programs :=
  Dialogue.programs [Hook.exited 0 "8e0a1c2f\n" .nothing,
    .completed ⟨0, files.flatMap Record.printed, []⟩ .nothing]

def oddFiles : List (Record Bytes) := [newFile "a\nb.php", newFile " ä:\u2028.js"]

theorem odd_paths_kept :
    ∃ s', list (listing oddFiles) Dialogue.start =
        .ok ["a\nb.php".toList, " ä:\u2028.js".toList] s' ∧
      ∀ r ∈ oddFiles, Utf8.encode r.received = r.path ↔ 0x0D ∉ r.path := by
  have hwords : ∀ r ∈ oddFiles, r.HasWords := by decide +kernel
  have hpaths : ∀ r ∈ oddFiles, IsPathBytes r.path := by
    simp only [IsPathBytes]
    decide +kernel
  have hbase : FindsBase (listing oddFiles) Dialogue.start Git.head
      (Dialogue.start.asked (listing oddFiles) headCommand) :=
    .lastCommit "8e0a1c2f\n".toList rfl
  obtain ⟨s', hlist, hkept, -⟩ := staged_path_kept_iff hwords hpaths hbase ⟨_, rfl, rfl, rfl, rfl⟩
  have hregular : (Record.regular oddFiles).map Record.received =
      ["a\nb.php".toList, " ä:\u2028.js".toList] := by decide +kernel
  rw [hregular] at hlist
  exact ⟨s', hlist, hkept⟩

/-- Two staged files that differ in a carriage return alone come back under one name. -/
theorem path_with_return_changed :
    value? (list (listing [newFile "a\rb.php", newFile "a\nb.php"]) Dialogue.start) =
        some ["a\nb.php".toList, "a\nb.php".toList] ∧
      (newFile "a\rb.php").path ≠ (newFile "a\nb.php").path ∧
      Utf8.encode "a\nb.php".toList ≠ (newFile "a\rb.php").path := by
  decide +kernel

end Staged

end CommitGate
