import CommitGate.Gate
import CommitGate.Proofs.Clean
import CommitGate.Proofs.Copy
import CommitGate.Proofs.Listing

/-! The gate as a pass over a list of files. Each file that is due is checked out once and in order,
and the abort flag at the end says whether one of them failed. -/
namespace CommitGate.Gate

open Session Check

def checkouts (queries : List Query) : List Query :=
  queries.filter (·.Asks Command.checkoutWord)

theorem checkouts_append (queries others : List Query) :
    checkouts (queries ++ others) = checkouts queries ++ checkouts others :=
  List.filter_append ..

theorem not_asksLinter_of_asksCheckout {q : Query} (h : q.Asks Command.checkoutWord) :
    ¬AsksLinter q := by
  rintro (hw | hl)
  · exact absurd (hw.unique h) (by decide)
  · exact absurd (hl.unique h) (by decide)

theorem checkouts_linter {queries : List Query} (h : ∀ q ∈ queries, AsksLinter q) :
    checkouts queries = [] := by
  refine List.filter_eq_nil_iff.2 fun q hq => ?_
  rw [decide_eq_true_eq]
  intro hc
  exact not_asksLinter_of_asksCheckout hc (h q hq)

def AsksGate (q : Query) : Prop := q.Asks Command.checkoutWord ∨ AsksLinter q

theorem not_asksListing_of_asksGate {q : Query} (h : AsksGate q) : ¬Staged.AsksListing q := by
  rintro ((hl | hl) | hl) <;> rcases h with h | h | h <;>
    exact absurd (h.unique hl) (by decide)

theorem checkouts_listing {queries : List Query} (h : ∀ q ∈ queries, Staged.AsksListing q) :
    checkouts queries = [] := by
  refine List.filter_eq_nil_iff.2 fun q hq => ?_
  rw [decide_eq_true_eq]
  exact fun hc => not_asksListing_of_asksGate (.inl hc) (h q hq)

def checkoutQuery (scratch : Path) (path : Text) (s : Session) : Query :=
  ⟨Staged.checkoutCommand scratch path, s.moment⟩

theorem checkouts_cons {queries : List Query} (scratch : Path) (path : Text) (s : Session)
    (h : ∀ q ∈ queries, AsksLinter q) :
    checkouts (checkoutQuery scratch path s :: queries) = [checkoutQuery scratch path s] := by
  have hc : (checkoutQuery scratch path s).Asks Command.checkoutWord := rfl
  rw [checkouts, List.filter_cons_of_pos (by simpa using hc)]
  exact congrArg _ (checkouts_linter h)

/-- A file does not stand in the way of the commit: it is checked out by this query, and the copy is
clean right after it. -/
structure Passes (programs : Programs) (scratch : Path) (Clean : Path → Moment → Prop) (path : Text)
    (q : Query) : Prop where
  command : q.command = Staged.checkoutCommand scratch path
  succeeded : q.Succeeded programs
  clean : Clean (scratch.child path) (q.after programs)

variable {programs : Programs} {scratch : Path} {extensions : List Text}
  {check : Text → Path → Action Unit} {Clean : Path → Moment → Prop} {s s' : Session}

theorem withCopy_ok {path : Text} (hcheck : ∀ copy s, Settles Clean copy s (check path copy s))
    (h : Staged.withCopy programs scratch path (check path) s = .ok () s') :
    ∃ queries, Ran s s' (checkoutQuery scratch path s :: queries) ∧
      (∀ q ∈ queries, AsksLinter q) ∧
      (s'.findings.abortRequested = false ↔ s.findings.abortRequested = false ∧
        Passes programs scratch Clean path (checkoutQuery scratch path s)) := by
  rw [Staged.withCopy_eq] at h
  cases hm : Git.meaning Command.checkoutWord
      (s.moment.ask programs (Staged.checkoutCommand scratch path)).1 with
  | error fault => rw [hm] at h; cases h
  | ok output =>
    rw [hm] at h
    dsimp only at h
    obtain ⟨t, hw, hr⟩ := thenAlways_eq_ok h
    have settles := hcheck (scratch.child path)
      (s.asked programs (Staged.checkoutCommand scratch path))
    rw [hw] at settles
    obtain ⟨queries, hran, hasks⟩ := settles.queries
    have flag := settles.flag t rfl
    rcases Staged.remove_cases (scratch.child path) scratch t with ⟨tree, he⟩ | ⟨fault, he⟩
    · rw [he] at hr
      cases hr
      have removed : Ran t { t with tree } [] := Ran.none rfl
      refine ⟨queries, ?_, hasks, flag.trans (and_congr_right fun _ => ?_)⟩
      · have hall := (ran_asked programs _ s).trans (hran.trans removed)
        rwa [List.append_nil] at hall
      · have hsucceeded : (checkoutQuery scratch path s).Succeeded programs :=
          Git.succeeded_of_meaning hm
        exact ⟨fun clean => ⟨rfl, hsucceeded, clean⟩, fun passes => passes.clean⟩
    · rw [he] at hr
      cases hr

theorem withCopy_git {path : Text} {failure : GitFailure}
    (hcheck : ∀ copy s, Settles Clean copy s (check path copy s))
    (h : Staged.withCopy programs scratch path (check path) s = .error (.git failure) s') :
    Ran s s' [checkoutQuery scratch path s] ∧
      ¬(checkoutQuery scratch path s).Succeeded programs := by
  rw [Staged.withCopy_eq] at h
  cases hm : Git.meaning Command.checkoutWord
      (s.moment.ask programs (Staged.checkoutCommand scratch path)).1 with
  | error fault =>
    rw [hm] at h
    cases h
    exact ⟨ran_asked programs _ s, Git.not_succeeded_of_meaning hm⟩
  | ok output =>
    rw [hm] at h
    dsimp only at h
    have no_removal : ∀ {t : Session},
        Staged.remove (scratch.child path) scratch t ≠ .error (.git failure) s' := by
      intro t ht
      rcases Staged.remove_cases (scratch.child path) scratch t with ⟨tree, he⟩ | ⟨fault, he⟩
      · rw [he] at ht
        cases ht
      · rw [he] at ht
        cases ht
    rcases thenAlways_eq_error h with ⟨_, t, _, hr⟩ | ⟨t, hw, _⟩ | ⟨t, fault, _, hr⟩
    · exact absurd hr no_removal
    · exact absurd hw ((hcheck _ _).no_git failure t)
    · exact absurd hr no_removal

def inspect (programs : Programs) (scratch : Path) (check : Text → Path → Action Unit)
    (path : Text) : Action Unit := do
  record .debug ("checking ".toList ++ path)
  Staged.withCopy programs scratch path (check path)

/-- An inspection goes by git's response to the checkout. Past that it is the check of the copy, with
the removal after it. -/
theorem inspect_eq (programs : Programs) (scratch : Path) (check : Text → Path → Action Unit)
    (path : Text) (s : Session) :
    ∃ u : Session, u.findings = s.findings ∧
      u.moment = (checkoutQuery scratch path s).after programs ∧
      Ran s u [checkoutQuery scratch path s] ∧
      inspect programs scratch check path s =
        match Git.meaning Command.checkoutWord
          ((checkoutQuery scratch path s).response programs) with
        | .error fault => .error fault u
        | .ok _ => thenAlways (check path (scratch.child path))
            (Staged.remove (scratch.child path) scratch) u := by
  obtain ⟨t, ht⟩ : ∃ t : Session,
      t = { s with log := s.logged .debug ("checking ".toList ++ path) } := ⟨_, rfl⟩
  have hrecord : record .debug ("checking ".toList ++ path) s = .ok () t := by
    rw [ht]
    rfl
  refine ⟨t.asked programs (Staged.checkoutCommand scratch path), ?_, ?_, ?_, ?_⟩
  · rw [ht]
    rfl
  · rw [ht]
    rfl
  · have hran := ran_asked programs (Staged.checkoutCommand scratch path) t
    rw [ht] at hran ⊢
    exact hran
  · rw [inspect, bind_of_ok hrecord, Staged.withCopy_eq, ht]
    rfl

theorem inspect_meaning {path : Text}
    (h : inspect programs scratch check path s = .ok () s') :
    ∃ output, Git.meaning Command.checkoutWord
      ((checkoutQuery scratch path s).response programs) = .ok output := by
  obtain ⟨u, _, _, _, he⟩ := inspect_eq programs scratch check path s
  rw [he] at h
  split at h
  · cases h
  · rename_i output hm
    exact ⟨output, hm⟩

theorem inspect_succeeded {path : Text}
    (h : inspect programs scratch check path s = .ok () s') :
    (checkoutQuery scratch path s).Succeeded programs := by
  obtain ⟨output, hm⟩ := inspect_meaning h
  exact Git.succeeded_of_meaning hm

theorem inspect_steps {path : Text} (h : inspect programs scratch check path s = .ok () s') :
    ∃ u t tree, u.findings = s.findings ∧
      u.moment = (checkoutQuery scratch path s).after programs ∧
      check path (scratch.child path) u = .ok () t ∧
      Staged.removed (scratch.child path) scratch t.tree = .ok tree ∧ s' = { t with tree } := by
  obtain ⟨u, hfindings, hmoment, _, he⟩ := inspect_eq programs scratch check path s
  rw [he] at h
  split at h
  · cases h
  · obtain ⟨t, hdone, hremoved⟩ := thenAlways_eq_ok h
    rw [Staged.remove_eq] at hremoved
    split at hremoved
    · rename_i tree hr
      cases hremoved
      exact ⟨u, t, tree, hfindings, hmoment, hdone, hr, rfl⟩
    · cases hremoved

theorem inspect_ok {path : Text} (hcheck : ∀ copy s, Settles Clean copy s (check path copy s))
    (h : inspect programs scratch check path s = .ok () s') :
    ∃ queries, Ran s s' (checkoutQuery scratch path s :: queries) ∧
      (∀ q ∈ queries, AsksLinter q) ∧
      (s'.findings.abortRequested = false ↔ s.findings.abortRequested = false ∧
        Passes programs scratch Clean path (checkoutQuery scratch path s)) := by
  obtain ⟨_, t, hr, hw⟩ := bind_eq_ok.1 h
  cases hr
  have result := withCopy_ok hcheck hw
  exact result

theorem inspect_git {path : Text} {failure : GitFailure}
    (hcheck : ∀ copy s, Settles Clean copy s (check path copy s))
    (h : inspect programs scratch check path s = .error (.git failure) s') :
    Ran s s' [checkoutQuery scratch path s] ∧
      ¬(checkoutQuery scratch path s).Succeeded programs := by
  rcases bind_eq_error.1 h with hr | ⟨_, t, hr, hw⟩
  · cases hr
  · cases hr
    have result := withCopy_git hcheck hw
    exact result

theorem asksGate_inspect {path : Text} {queries : List Query} (h : ∀ q ∈ queries, AsksLinter q) :
    ∀ q ∈ checkoutQuery scratch path s :: queries, AsksGate q := by
  rw [List.forall_mem_cons]
  exact ⟨.inl rfl, fun q hq => .inr (h q hq)⟩

def due (extensions : List Text) (files : List Text) : List Text :=
  files.filter (hasExtension extensions)

def IsDue (path : Text) : Prop :=
  hasExtension phpExtensions path ∨ hasExtension scriptExtensions path

theorem checkEach_cons (path : Text) (rest : List Text) :
    checkEach programs scratch extensions check (path :: rest) s =
      if hasExtension extensions path then
        (inspect programs scratch check path >>= fun _ =>
          checkEach programs scratch extensions check rest) s
      else checkEach programs scratch extensions check rest s := by
  rw [checkEach]
  split <;> rfl

theorem checkEach_eq_forM (files : List Text) (s : Session) :
    checkEach programs scratch extensions check files s =
      (due extensions files).forM (inspect programs scratch check) s := by
  induction files generalizing s with
  | nil => rfl
  | cons path rest ih =>
    rw [checkEach_cons]
    by_cases hext : hasExtension extensions path
    · rw [if_pos hext, due, List.filter_cons_of_pos hext]
      change EStateM.bind _ _ s = EStateM.bind _ _ s
      simp only [EStateM.bind]
      cases inspect programs scratch check path s with
      | ok _ t => exact ih t
      | error fault t => rfl
    · rw [if_neg hext, due, List.filter_cons_of_neg hext]
      exact ih s

theorem checkEach_ok (hcheck : ∀ path copy s, Settles Clean copy s (check path copy s))
    {files : List Text} (h : checkEach programs scratch extensions check files s = .ok () s') :
    ∃ queries, Ran s s' queries ∧ (∀ q ∈ queries, AsksGate q) ∧
      (checkouts queries).map Query.command =
        (due extensions files).map (Staged.checkoutCommand scratch) ∧
      (s'.findings.abortRequested = false ↔ s.findings.abortRequested = false ∧
        List.Forall₂ (Passes programs scratch Clean) (due extensions files) (checkouts queries)) := by
  induction files generalizing s with
  | nil =>
    cases h
    exact ⟨[], Ran.none rfl, by simp, rfl, by simp [due, checkouts]⟩
  | cons path rest ih =>
    rw [checkEach_cons] at h
    split at h
    · rename_i hext
      obtain ⟨_, t, hi, ht⟩ := bind_eq_ok.1 h
      obtain ⟨queries, hran, hasks, hflag⟩ := inspect_ok (hcheck path) hi
      obtain ⟨more, hran', hasks', hcommands, hflag'⟩ := ih ht
      have hdue : due extensions (path :: rest) = path :: due extensions rest :=
        List.filter_cons_of_pos hext
      have hall : checkouts (checkoutQuery scratch path s :: queries ++ more) =
          checkoutQuery scratch path s :: checkouts more := by
        rw [checkouts_append, checkouts_cons scratch path s hasks, List.singleton_append]
      refine ⟨_, hran.trans hran', ?_, ?_, ?_⟩
      · exact List.forall_mem_append.2 ⟨asksGate_inspect hasks, hasks'⟩
      · exact hdue ▸ hall ▸ congrArg (_ :: ·) hcommands
      · rw [hdue, hall, List.forall₂_cons, hflag', hflag, and_assoc]
    · rename_i hext
      have hdue : due extensions (path :: rest) = due extensions rest :=
        List.filter_cons_of_neg hext
      rw [hdue]
      exact ih h

/-- What each inspection of a pass keeps to, with the file and the checkout that it was for, the whole pass
keeps to. -/
theorem checkEach_invariant (Inv : List (Text × Query) → Session → Prop)
    (hcheck : ∀ path copy s, Settles Clean copy s (check path copy s))
    (hstep : ∀ done path t t', hasExtension extensions path → Inv done t →
      inspect programs scratch check path t = .ok () t' →
      Inv (done ++ [(path, checkoutQuery scratch path t)]) t')
    {files : List Text} (h : checkEach programs scratch extensions check files s = .ok () s')
    (hstart : Inv [] s) :
    ∃ queries, Ran s s' queries ∧
      (checkouts queries).map Query.command =
        (due extensions files).map (Staged.checkoutCommand scratch) ∧
      Inv ((due extensions files).zip (checkouts queries)) s' := by
  rw [checkEach_eq_forM] at h
  have hdue : ∀ path ∈ due extensions files, hasExtension extensions path :=
    fun path hp => (List.mem_filter.1 hp).2
  generalize due extensions files = paths at h hdue ⊢
  induction paths generalizing s Inv with
  | nil =>
    cases h
    exact ⟨[], Ran.none rfl, rfl, hstart⟩
  | cons path rest ih =>
    obtain ⟨hpath, hrest⟩ := List.forall_mem_cons.1 hdue
    obtain ⟨_, t, hi, ht⟩ := bind_eq_ok.1 h
    obtain ⟨queries, hran, hasks, _⟩ := inspect_ok (hcheck path) hi
    obtain ⟨more, hran', hcommands, hinv⟩ := ih
      (fun done => Inv ((path, checkoutQuery scratch path s) :: done))
      (fun done => hstep (_ :: done)) (hstep [] path s t hpath hstart hi) ht hrest
    have hall : checkouts (checkoutQuery scratch path s :: queries ++ more) =
        checkoutQuery scratch path s :: checkouts more := by
      rw [checkouts_append, checkouts_cons scratch path s hasks, List.singleton_append]
    refine ⟨_, hran.trans hran', ?_, ?_⟩
    · rw [hall, List.map_cons, List.map_cons, hcommands]
      rfl
    · rw [hall, List.zip_cons_cons]
      exact hinv

theorem checkEach_checkouts (hcheck : ∀ path copy s, Settles Clean copy s (check path copy s))
    {files : List Text} {queries : List Query}
    (h : checkEach programs scratch extensions check files s = .ok () s') (hran : Ran s s' queries) :
    ∀ q ∈ checkouts queries, q.Succeeded programs ∧
      ∃ path ∈ due extensions files, q.command = Staged.checkoutCommand scratch path := by
  obtain ⟨all, hran', hcommands, hsucceeded⟩ :=
    checkEach_invariant (fun done _ => ∀ x ∈ done, x.2.Succeeded programs) hcheck
      (fun _ _ _ _ _ hdone hi => List.forall_mem_append.2
        ⟨hdone, List.forall_mem_singleton.2 (inspect_succeeded hi)⟩)
      h (by simp)
  obtain rfl : queries = all := hran.queriesBetween_eq.symm.trans hran'.queriesBetween_eq
  intro q hq
  have hcommand := hcommands ▸ List.mem_map_of_mem (f := Query.command) hq
  obtain ⟨path, hpath, he⟩ := List.mem_map.1 hcommand
  have hlength : (checkouts queries).length ≤ (due extensions files).length := by
    simpa using (congrArg List.length hcommands).le
  rw [← List.map_snd_zip hlength] at hq
  obtain ⟨x, hx, rfl⟩ := List.mem_map.1 hq
  exact ⟨hsucceeded x hx, path, hpath, he.symm⟩

theorem checkEach_git (hcheck : ∀ path copy s, Settles Clean copy s (check path copy s))
    {files : List Text} {failure : GitFailure}
    (h : checkEach programs scratch extensions check files s = .error (.git failure) s') :
    ∃ queries, Ran s s' queries ∧ (∀ q ∈ queries, AsksGate q) ∧
      ∃ q ∈ checkouts queries, ¬q.Succeeded programs := by
  induction files generalizing s with
  | nil => cases h
  | cons path rest ih =>
    rw [checkEach_cons] at h
    split at h
    · rcases bind_eq_error.1 h with hi | ⟨_, t, hi, ht⟩
      · obtain ⟨hran, no⟩ := inspect_git (hcheck path) hi
        refine ⟨_, hran, asksGate_inspect (by simp), checkoutQuery scratch path s, ?_, no⟩
        rw [checkouts_cons scratch path s (by simp)]
        exact List.mem_singleton_self _
      · obtain ⟨queries, hran, hasks, _⟩ := inspect_ok (hcheck path) hi
        obtain ⟨more, hran', hasks', q, hq, no⟩ := ih ht
        refine ⟨_, hran.trans hran', ?_, q, ?_, no⟩
        · exact List.forall_mem_append.2 ⟨asksGate_inspect hasks, hasks'⟩
        · rw [checkouts_append]
          exact List.mem_append_right _ hq
    · exact ih h

end CommitGate.Gate
