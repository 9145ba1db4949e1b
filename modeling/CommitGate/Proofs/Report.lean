import CommitGate.Proofs.Check

/-! Findings that a report can be made of: each file with a syntax error has its lint output. Whatever
a check adds to such findings, they stay so. -/
namespace CommitGate.Findings

theorem lookup_withOutput (outputs : List (Text × Text)) (path output p : Text) :
    (withOutput outputs path output).lookup p =
      if p = path then some output else outputs.lookup p := by
  induction outputs with
  | nil =>
    rw [withOutput, List.lookup_cons]
    by_cases hp : p = path
    · rw [if_pos hp, beq_iff_eq.2 hp]
    · rw [if_neg hp, beq_eq_false_iff_ne.2 hp]
  | cons first rest ih =>
    obtain ⟨q, o⟩ := first
    rw [withOutput]
    by_cases hq : q = path
    · subst hq
      rw [if_pos rfl, List.lookup_cons, List.lookup_cons]
      by_cases hp : p = q
      · rw [if_pos hp, beq_iff_eq.2 hp]
      · rw [if_neg hp, beq_eq_false_iff_ne.2 hp]
    · rw [if_neg hq, List.lookup_cons, List.lookup_cons, ih]
      by_cases hp : p = q
      · have hne : p ≠ path := fun he => hq (hp ▸ he)
        rw [if_neg hne, if_neg hne, beq_iff_eq.2 hp]
      · rw [beq_eq_false_iff_ne.2 hp]

def Printable (f : Findings) : Prop := ∀ path ∈ f.syntaxErrorFiles, (f.lintOutput.lookup path).isSome

theorem printable_fresh (scratch : Path) : (fresh scratch).Printable := by
  intro path h
  cases h

theorem Printable.withCalls {f : Findings} (h : f.Printable) (stripped : Option Text)
    (path text : Text) : (Check.withCalls stripped path text f).Printable := by
  rw [Check.withCalls]
  split
  · exact h
  · exact h

theorem Printable.withScript {f : Findings} (h : f.Printable) (path text : Text) :
    (Check.withScript path text f).Printable := by
  rw [Check.withScript]
  split
  · exact h
  · exact h

theorem Printable.withLint {f : Findings} (h : f.Printable) (path : Text) (lint : LintResult) :
    (Check.withLint path lint f).Printable := by
  have added : ∀ p, p = path ∨ p ∈ f.syntaxErrorFiles →
      ((withOutput f.lintOutput path lint.output).lookup p).isSome := by
    intro p hp
    rw [lookup_withOutput]
    by_cases he : p = path
    · rw [if_pos he]
      rfl
    · rw [if_neg he]
      exact h p (hp.resolve_left he)
  rw [Check.withLint]
  split
  · intro p hp
    rcases List.mem_append.1 hp with hp | hp
    · exact added p (.inr hp)
    · exact added p (.inl (List.mem_singleton.1 hp))
  · exact fun p hp => added p (.inr hp)

theorem mapM_lintRowsOf {f : Findings} {paths : List Text}
    (h : ∀ path ∈ paths, (f.lintOutput.lookup path).isSome) :
    ∃ rows, paths.mapM (Report.lintRowsOf f) = .ok rows := by
  induction paths with
  | nil => exact ⟨[], rfl⟩
  | cons path rest ih =>
    obtain ⟨hpath, hrest⟩ := List.forall_mem_cons.1 h
    obtain ⟨output, ho⟩ := Option.isSome_iff_exists.1 hpath
    obtain ⟨rows, hrows⟩ := ih hrest
    rw [List.mapM_cons, Report.lintRowsOf, ho, hrows]
    exact ⟨_, rfl⟩

theorem Printable.render {f : Findings} (h : f.Printable) :
    ∃ report, Report.render f = .ok report := by
  obtain ⟨rows, hrows⟩ := mapM_lintRowsOf h
  have hsection : ∃ sections, Report.syntaxSection f = .ok sections := by
    rw [Report.syntaxSection, hrows]
    split
    · exact ⟨_, rfl⟩
    · exact ⟨_, rfl⟩
  obtain ⟨sections, hs⟩ := hsection
  rw [Report.render, hs]
  split
  · exact ⟨_, rfl⟩
  · exact ⟨_, rfl⟩

end CommitGate.Findings
