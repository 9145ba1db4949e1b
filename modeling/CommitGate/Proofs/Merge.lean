import CommitGate.Proofs.Bookkeeping

/-! Findings put together from parts. Reports, syntax errors and the log follow one another, and a lint
output is the one that came last; so in which order the parts come shows in the order alone, as long as
no two of them have different outputs for a path. -/
namespace CommitGate.Findings

def withOutputs (outputs more : List (Text × Text)) : List (Text × Text) :=
  more.foldl (fun all x => withOutput all x.1 x.2) outputs

def plus (f g : Findings) : Findings where
  scratch := f.scratch
  abortRequested := f.abortRequested || g.abortRequested
  debugReports := f.debugReports ++ g.debugReports
  lintLog := f.lintLog ++ g.lintLog
  lintOutput := withOutputs f.lintOutput g.lintOutput
  syntaxErrorFiles := f.syntaxErrorFiles ++ g.syntaxErrorFiles

def merge (scratch : Path) (parts : List Findings) : Findings where
  scratch := scratch
  abortRequested := parts.any (·.abortRequested)
  debugReports := parts.flatMap (·.debugReports)
  lintLog := parts.flatMap (·.lintLog)
  lintOutput := withOutputs [] (parts.flatMap (·.lintOutput))
  syntaxErrorFiles := parts.flatMap (·.syntaxErrorFiles)

variable {scratch : Path} {parts : List Findings} {f g : Findings}

theorem merge_nil (scratch : Path) : merge scratch [] = fresh scratch := rfl

theorem merge_concat (scratch : Path) (parts : List Findings) (g : Findings) :
    merge scratch (parts ++ [g]) = (merge scratch parts).plus g := by
  simp [merge, plus, withOutputs]

/-- A step that adds the same to whatever has been found. -/
def Additive (scratch : Path) (found : Findings → Findings) : Prop :=
  ∀ f, found f = f.plus (found (fresh scratch))

theorem additive_addReport (scratch : Path) (block : Text) : Additive scratch (·.addReport block) := by
  intro f
  simp [addReport, plus, fresh, withOutputs]

theorem additive_withScript (scratch : Path) (path text : Text) :
    Additive scratch (Check.withScript path text) := by
  intro f
  simp only [Check.withScript]
  split
  · simp [plus, fresh, withOutputs]
  · exact additive_addReport scratch _ f

theorem additive_withLint (scratch : Path) (path text : Text) (stripped : Option Text)
    (lint : LintResult) :
    Additive scratch fun f => Check.withLint path lint (Check.withCalls stripped path text f) := by
  intro f
  simp only [Check.withLint, Check.withCalls]
  cases lint.isParseError <;> cases Check.hasDebugCall stripped text <;>
    simp [addReport, addLintOutput, addSyntaxError, plus, fresh, withOutputs, withOutput]

/-- Steps that each add the same put together what they would find alone. -/
theorem foldl_merge {α : Type} {found : α → Findings → Findings} {steps : List α}
    (h : ∀ x ∈ steps, Additive scratch (found x)) :
    steps.foldl (fun f x => found x f) (merge scratch parts) =
      merge scratch (parts ++ steps.map fun x => found x (fresh scratch)) := by
  induction steps generalizing parts with
  | nil => simp
  | cons x rest ih =>
    obtain ⟨hx, hrest⟩ := List.forall_mem_cons.1 h
    rw [List.foldl_cons, hx, ← merge_concat, ih hrest, List.append_assoc]
    rfl

theorem lookup_withOutputs (outputs more : List (Text × Text)) (p : Text) :
    (withOutputs outputs more).lookup p = (more.reverse.lookup p).or (outputs.lookup p) := by
  induction more generalizing outputs with
  | nil => rfl
  | cons x rest ih =>
    obtain ⟨q, o⟩ := x
    change (withOutputs (withOutput outputs q o) rest).lookup p = _
    rw [ih, lookup_withOutput, List.reverse_cons, List.lookup_append]
    by_cases hp : p = q
    · subst hp
      simp
    · have hne : (p == q) = false := by simpa using hp
      simp [hp, hne, List.lookup_cons]

/-- The lint outputs of a part are the one of its own path, if it has one. -/
def OwnOutput (path : Text) (f : Findings) : Prop :=
  ∃ output : Option Text, f.lintOutput = output.toList.map fun o => (path, o)

theorem ownOutput_lookup {path p : Text} (h : f.OwnOutput path) :
    f.lintOutput.reverse.lookup p = if p = path then f.lintOutput.lookup path else none := by
  obtain ⟨output, ho⟩ := h
  rw [ho]
  cases output with
  | none => simp
  | some o =>
    by_cases hp : p = path
    · simp [hp]
    · have hne : (p == path) = false := by simpa using hp
      simp [hp, hne, List.lookup_cons]

variable {alone : Text → Findings} {paths paths' : List Text}

theorem lookup_merge (hown : ∀ path ∈ paths, (alone path).OwnOutput path) (p : Text) :
    (merge scratch (paths.map alone)).lintOutput.lookup p =
      if p ∈ paths then (alone p).lintOutput.lookup p else none := by
  change (withOutputs [] _).lookup p = _
  rw [lookup_withOutputs, List.lookup_nil, Option.or_none]
  induction paths with
  | nil => rfl
  | cons path rest ih =>
    obtain ⟨hpath, hrest⟩ := List.forall_mem_cons.1 hown
    rw [List.map_cons, List.flatMap_cons, List.reverse_append, List.lookup_append, ih hrest,
      ownOutput_lookup hpath]
    by_cases hp : p = path
    · subst hp
      by_cases hmem : p ∈ rest
      · simp [hmem]
      · simp [hmem]
    · simp [hp]

/-- Findings that differ in the order of the reports and files alone. -/
structure Rearranged (f g : Findings) : Prop where
  flag : f.abortRequested = g.abortRequested
  outputs : ∀ p, f.lintOutput.lookup p = g.lintOutput.lookup p
  reports : f.debugReports.Perm g.debugReports
  errors : f.syntaxErrorFiles.Perm g.syntaxErrorFiles

theorem merge_rearranged (hperm : paths.Perm paths')
    (hown : ∀ path ∈ paths, (alone path).OwnOutput path) :
    (merge scratch (paths.map alone)).Rearranged (merge scratch (paths'.map alone)) where
  flag := (hperm.map alone).any_eq
  outputs p := by
    rw [lookup_merge hown, lookup_merge fun path hp => hown path (hperm.mem_iff.2 hp)]
    simp only [hperm.mem_iff]
  reports := (hperm.map alone).flatMap_right _
  errors := (hperm.map alone).flatMap_right _

end CommitGate.Findings
