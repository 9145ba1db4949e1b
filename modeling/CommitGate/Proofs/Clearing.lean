import CommitGate.Proofs.Checkouts

/-! Checkouts that clear their way. They remove a file that stands where a directory has to be made, and a
directory that stands where a file belongs, with all that is in it. -/
namespace CommitGate

namespace FileTree

theorem entryAt_filter (entries : List (Key × Entry)) (stays : Key → Bool) (k : Key) :
    entryAt (entries.filter fun e => stays e.1) k =
      if stays k ∨ Key.isAnchor k then entryAt entries k else none := by
  rw [entryAt, entryAt, lookup_filter]
  cases Key.isAnchor k <;> simp

def cut (t : FileTree) (key : Key) : FileTree where
  entries := t.entries.filter fun e => !key.isPrefixOf e.1
  rooted k name h := by
    rw [entryAt_filter t.entries fun k => !key.isPrefixOf k] at h ⊢
    split at h
    · rename_i hstays
      have hparent : (!key.isPrefixOf k) = true ∨ Key.isAnchor k := by
        refine hstays.imp (fun hkey => ?_) Key.isAnchor_of_append
        simp only [Bool.not_eq_true', ← Bool.not_eq_true, List.isPrefixOf_iff_prefix] at hkey ⊢
        exact fun hk => hkey (hk.trans (List.prefix_append _ _))
      rw [if_pos hparent]
      exact t.rooted k name h
    · exact absurd rfl h

theorem find_cut (t : FileTree) (key k : Key) :
    (t.cut key).find k = if key <+: k ∧ Key.isAnchor k = false then none else t.find k := by
  rw [find, cut, entryAt_filter t.entries fun k => !key.isPrefixOf k]
  by_cases hk : key <+: k
  · have hprefix : key.isPrefixOf k = true := List.isPrefixOf_iff_prefix.2 hk
    cases hanchor : Key.isAnchor k <;> simp [hk, hprefix, find]
  · have hprefix : key.isPrefixOf k = false := by simpa [← List.isPrefixOf_iff_prefix] using hk
    simp [hk, hprefix, find]

def cutFile (t : FileTree) (key : Key) : FileTree := if t.IsFile key then t.cut key else t

/-- The tree in which a file can be put at the end of a written path. -/
def clear (t : FileTree) (x : Text) : FileTree :=
  let t := (WrittenPath.way x).foldl cutFile t
  if t.find (WrittenPath.goal x) = some .directory then t.cut (WrittenPath.goal x) else t

theorem find_cutFile (t : FileTree) (key k : Key) :
    (t.cutFile key).find k = if k = key ∧ t.IsFile key then none else t.find k := by
  rw [cutFile]
  by_cases hfile : t.IsFile key
  · obtain ⟨content, hcontent⟩ := hfile
    have hanchor : Key.isAnchor key = false := t.not_isAnchor_of_find_ne (by simp [hcontent])
    rw [if_pos ⟨content, hcontent⟩, find_cut]
    by_cases hk : k = key
    · rw [hk, if_pos ⟨List.prefix_rfl, hanchor⟩, if_pos ⟨rfl, content, hcontent⟩]
    · have hright : ¬(k = key ∧ t.IsFile key) := fun h => hk h.1
      rw [if_neg hright]
      exact ite_eq_right_iff.2 fun hbelow => (find_below hcontent hbelow.1 hk).symm
  · rw [if_neg hfile, if_neg fun h => hfile h.2]

theorem find_foldl_cutFile (keys : List Key) (t : FileTree) (k : Key) :
    (keys.foldl cutFile t).find k = if k ∈ keys ∧ t.IsFile k then none else t.find k := by
  induction keys generalizing t with
  | nil => simp
  | cons key rest ih =>
    rw [List.foldl_cons, ih]
    by_cases hk : k = key ∧ t.IsFile key
    · have hnone : (t.cutFile key).find k = none := by rw [find_cutFile, if_pos hk]
      rw [hnone, ite_self, if_pos ⟨List.mem_cons.2 (.inl hk.1), hk.1 ▸ hk.2⟩]
    · have hsame : (t.cutFile key).find k = t.find k := by rw [find_cutFile, if_neg hk]
      have hfile : (t.cutFile key).IsFile k ↔ t.IsFile k := exists_congr fun _ => by rw [hsame]
      rw [hsame]
      refine if_congr ?_ rfl rfl
      rw [hfile]
      refine and_congr_left fun hthere => ?_
      rw [List.mem_cons, or_iff_right]
      rintro rfl
      exact hk ⟨rfl, hthere⟩

section Checkout

variable {t : FileTree} {scratch : Path} {path : Text}
  (hpath : WrittenPath.IsRepositoryPath path)

include hpath

theorem find_clear (t : FileTree) {k : Key} (hplace : ¬(scratch.child path).place <+: k)
    (hway : k ∉ (scratch.child path).way) :
    (t.clear (scratch.toText ++ Path.slash :: path)).find k = t.find k := by
  have hcopy := hpath.leadsOn scratch
  have hfold : ((WrittenPath.way (scratch.toText ++ Path.slash :: path)).foldl cutFile t).find k =
      t.find k := by
    rw [find_foldl_cutFile, if_neg fun h => hway ((Path.mem_way_written hcopy).1 h.1)]
  rw [clear]
  split
  · rw [find_cut, if_neg fun h => hplace (Path.goal_written hcopy ▸ h.1), hfold]
  · exact hfold

theorem open_clear (t : FileTree)
    (hoff : (scratch.child path).place ∉ (scratch.child path).way) :
    (t.clear (scratch.toText ++ Path.slash :: path)).Open (scratch.child path) := by
  have hcopy := hpath.leadsOn scratch
  have hanchor : Key.isAnchor (scratch.child path).place = false := by
    obtain ⟨front, last, hsteps⟩ :=
      (List.eq_nil_or_concat' _).resolve_left (WrittenPath.steps_ne_nil path)
    obtain ⟨hname, habove⟩ := hpath last (by simp [hsteps])
    rw [hcopy.place_eq, hsteps, ← List.append_assoc]
    exact Key.not_isAnchor_concat hname habove _
  have hfold : ∀ d ∈ (scratch.child path).way, ∀ content,
      ((WrittenPath.way (scratch.toText ++ Path.slash :: path)).foldl cutFile t).find d ≠
        some (.file content) := by
    intro d hd content hfile
    rw [find_foldl_cutFile] at hfile
    split at hfile
    · cases hfile
    · rename_i hno
      exact hno ⟨(Path.mem_way_written hcopy).2 hd, content, hfile⟩
  rw [clear, Path.goal_written hcopy]
  split
  · refine ⟨fun d hd content hfile => ?_, hoff, ?_⟩
    · rw [find_cut] at hfile
      split at hfile
      · cases hfile
      · exact hfold d hd content hfile
    · rw [find_cut, if_pos ⟨List.prefix_rfl, hanchor⟩]
      simp
  · rename_i hno
    exact ⟨hfold, hoff, hno⟩

end Checkout

end FileTree

namespace Programs

/-- The answer to a command whose checkout, if it is one that leaves a file, clears its way for that. -/
def cleared (now : Invocation) (reply : Reply) : Answer :=
  match now.command.checkoutTarget?, reply.left with
  | some target, .file _ => placed ⟨now.command, now.tree.clear target⟩ reply
  | _, _ => placed now reply

def clearing (reply : List Invocation → Invocation → Reply) : Programs where
  answer past now := cleared now (reply past now)
  keeps past now h := by
    simp only [cleared, h]
    exact tree_placed h (reply past now)

variable {scratch : Path} {path : Text} {answer : Command → Reply} {c : Completion}

theorem answerBy_clearing (answer : Command → Reply) :
    (clearing fun _ now => answer now.command).AnswerBy answer := by
  intro past now h
  change (cleared now _).response = _
  simp only [cleared, h]
  exact answerBy_byCommand answer past now h

theorem cleared_checkout {t : FileTree} {reply : Reply} (hpath : WrittenPath.IsRepositoryPath path)
    (hfile : ∀ c left, reply = .completed c left → c.status = 0 → ∃ content, left = .file content)
    (h : (cleared ⟨Staged.checkoutCommand scratch path, t⟩ reply).response = .completed c)
    (hzero : c.status = 0) :
    ∃ content, reply = .completed c (.file content) ∧
      (scratch.child path).place ∉ (scratch.child path).way ∧
      (t.clear (scratch.toText ++ Path.slash :: path)).Deposited
        (cleared ⟨Staged.checkoutCommand scratch path, t⟩ reply).tree (scratch.child path)
        content := by
  cases hleft : reply.left with
  | file content =>
    simp only [cleared, Staged.checkoutCommand_target, hleft] at h ⊢
    obtain ⟨content, hreply, hopen, hdeposited⟩ := placed_checkout hpath hfile h hzero
    exact ⟨content, hreply, hopen.off, hdeposited⟩
  | _ =>
    simp only [cleared, Staged.checkoutCommand_target, hleft] at h
    obtain ⟨content, hreply, _⟩ := placed_checkout hpath hfile h hzero
    rw [hreply] at hleft
    cases hleft

theorem writes_clearing (hpath : WrittenPath.IsRepositoryPath path)
    (hfile : ∀ c left, answer (Staged.checkoutCommand scratch path) = .completed c left →
      c.status = 0 → ∃ content, left = .file content) :
    (clearing fun _ now => answer now.command).Writes scratch answer path where
  written := by
    rintro ⟨_, m⟩ rfl ⟨c, hresponse, hzero⟩
    obtain ⟨content, hreply, _, hdeposited⟩ := cleared_checkout hpath hfile hresponse hzero
    refine ⟨c, content, hreply, hresponse, hdeposited.file, hdeposited.way, fun k hplace hway => ?_⟩
    have hne : k ≠ (scratch.child path).place := fun he => hplace (he ▸ List.prefix_rfl)
    exact (hdeposited.kept k hne hway).trans (FileTree.find_clear hpath m.tree hplace hway)
  again := by
    rintro ⟨_, m⟩ ⟨_, m'⟩ rfl rfl _ _ ⟨c, hresponse, hzero⟩
    obtain ⟨content, hreply, hoff, _⟩ := cleared_checkout hpath hfile hresponse hzero
    obtain ⟨tree, hleave, _⟩ :=
      Staged.leave_checkout hpath (FileTree.open_clear hpath m'.tree hoff) content
    refine ⟨c, ?_, hzero⟩
    change (cleared ⟨_, _⟩ (answer _)).response = _
    rw [hreply]
    simp only [cleared, Staged.checkoutCommand_target, Reply.left]
    rw [placed_of_leave hleave]
    rfl

end Programs

end CommitGate
