import CommitGate.Proofs.Deposit

/-! What a run may rely on about its programs, and programs that are known to be so. Git is free in what it
does with a tree in which something stands in the way of a copy; what it does with one where nothing does is
what a result needs. -/
namespace CommitGate

namespace FileTree

structure Free (t : FileTree) (copy : Path) : Prop where
  way : ∀ d ∈ copy.way, ∀ content, t.find d ≠ some (.file content)
  off : copy.place ∉ copy.way
  place : t.find copy.place = none

theorem Free.toOpen {t : FileTree} {copy : Path} (h : t.Free copy) : t.Open copy :=
  ⟨h.way, h.off, by simp [h.place]⟩

def Takes (t t' : FileTree) (copy : Path) : Deposit → Prop
  | .nothing => ∀ k, t'.find k = t.find k
  | .file content => t.Deposited t' copy content
  | .directory => t.Laid t' copy

/-- One tree is another one with a file put in where a copy belongs. A file on the way has given place to a
directory, and a directory where the copy belongs is gone with all that was in it; nothing else has changed. -/
structure Replaced (t t' : FileTree) (copy : Path) (content : Bytes) : Prop where
  file : t'.find copy.place = some (.file content)
  way : ∀ d ∈ copy.way, t'.find d = some .directory
  kept : ∀ k, ¬copy.place <+: k → k ∉ copy.way → t'.find k = t.find k

theorem Deposited.replaced {t t' : FileTree} {copy : Path} {content : Bytes}
    (h : t.Deposited t' copy content) : t.Replaced t' copy content where
  file := h.file
  way := h.way
  kept k hplace hway := h.kept k (fun he => hplace (he ▸ List.prefix_rfl)) hway

end FileTree

namespace Programs

/-- Commands that are no checkouts are answered by the command alone. -/
def AnswerBy (programs : Programs) (answer : Command → Reply) : Prop :=
  ∀ past (now : Invocation), now.command.checkoutTarget? = none →
    (programs.answer past now).response = (answer now.command).response

/-- So are the checkouts for which the way is free, and they leave what they reply. -/
structure GoBy (programs : Programs) (scratch : Path) (answer : Command → Reply) : Prop where
  others : programs.AnswerBy answer
  checkouts : ∀ past (now : Invocation) path, now.command = Staged.checkoutCommand scratch path →
    WrittenPath.IsRepositoryPath path → now.tree.Free (scratch.child path) →
      (programs.answer past now).response = (answer now.command).response ∧
        now.tree.Takes (programs.answer past now).tree (scratch.child path)
          (answer now.command).left

/-- A checkout of a path writes the same file whenever it succeeds, whatever it finds, and it succeeds again
where no more is in its way. -/
structure Writes (programs : Programs) (scratch : Path) (answer : Command → Reply) (path : Text) :
    Prop where
  written : ∀ q : Query, q.command = Staged.checkoutCommand scratch path → q.Succeeded programs →
    ∃ c content, answer q.command = .completed c (.file content) ∧
      q.response programs = .completed c ∧
        q.moment.tree.Replaced (q.after programs).tree (scratch.child path) content
  again : ∀ q q' : Query, q.command = Staged.checkoutCommand scratch path → q'.command = q.command →
    (∀ d ∈ (scratch.child path).way, q'.moment.tree.IsFile d → q.moment.tree.IsFile d) →
    (q'.moment.tree.find (scratch.child path).place = some .directory →
      q.moment.tree.find (scratch.child path).place = some .directory) →
      q.Succeeded programs → q'.Succeeded programs

/-- With no file in its way or in its place, a checkout leaves the files as they are, or it leaves something
where its copy belongs and makes the directories on the way; it does nothing else. -/
def LaysCopies (programs : Programs) (scratch : Path) : Prop :=
  ∀ past (now : Invocation) path, now.command = Staged.checkoutCommand scratch path →
    WrittenPath.IsRepositoryPath path →
    (∀ d ∈ (scratch.child path).way, ∀ content, now.tree.find d ≠ some (.file content)) →
    (∀ content, now.tree.find (scratch.child path).place ≠ some (.file content)) →
      (∀ k, (programs.answer past now).tree.find k = now.tree.find k) ∨
        now.tree.Laid (programs.answer past now).tree (scratch.child path)

def byCommand (answer : Command → Reply) : Programs := .placing fun _ now => answer now.command

theorem placed_of_leave {now : Invocation} {reply : Reply} {tree : FileTree}
    (h : now.command.leave reply.left now.tree = .ok () tree) :
    placed now reply = ⟨reply.response, tree⟩ := by
  cases reply with
  | notStarted failure =>
    have htree : tree = now.tree := by
      unfold Command.leave at h
      cases hcheckout : now.command.checkoutTarget? <;>
        · rw [hcheckout] at h
          cases h
          rfl
    rw [htree]
    rfl
  | completed c left =>
    rw [placed]
    change now.command.leave left now.tree = .ok () tree at h
    rw [h]
    rfl

theorem answerBy_byCommand (answer : Command → Reply) : (byCommand answer).AnswerBy answer := by
  intro past now h
  have hleave : now.command.leave (answer now.command).left now.tree = .ok () now.tree := by
    simp only [Command.leave, h]
  exact congrArg Answer.response (placed_of_leave hleave)

theorem goBy_byCommand (scratch : Path) {answer : Command → Reply}
    (hleft : ∀ path, (answer (Staged.checkoutCommand scratch path)).left ≠ .directory) :
    (byCommand answer).GoBy scratch answer where
  others := answerBy_byCommand answer
  checkouts past now path hcommand hpath hfree := by
    obtain ⟨tree, hleave, htakes⟩ : ∃ tree,
        now.command.leave (answer now.command).left now.tree = .ok () tree ∧
          now.tree.Takes tree (scratch.child path) (answer now.command).left := by
      rw [hcommand]
      cases hreply : (answer (Staged.checkoutCommand scratch path)).left with
      | nothing =>
        exact ⟨now.tree, by simp only [Command.leave, Staged.checkoutCommand_target], fun _ => rfl⟩
      | file content =>
        exact Staged.leave_checkout hpath hfree.toOpen content
      | directory => exact absurd hreply (hleft path)
    have hanswer := placed_of_leave hleave
    exact ⟨congrArg Answer.response hanswer, (congrArg Answer.tree hanswer).symm ▸ htakes⟩

theorem placed_checkout {scratch : Path} {path : Text} {t : FileTree} {reply : Reply} {c : Completion}
    (hpath : WrittenPath.IsRepositoryPath path)
    (hfile : ∀ c left, reply = .completed c left → c.status = 0 → ∃ content, left = .file content)
    (h : (placed ⟨Staged.checkoutCommand scratch path, t⟩ reply).response = .completed c)
    (hzero : c.status = 0) :
    ∃ content, reply = .completed c (.file content) ∧ t.Open (scratch.child path) ∧
      t.Deposited (placed ⟨Staged.checkoutCommand scratch path, t⟩ reply).tree
        (scratch.child path) content := by
  cases reply with
  | notStarted failure => cases h
  | completed c' left =>
    cases hleave : (Staged.checkoutCommand scratch path).leave left t with
    | error fault tree =>
      simp only [placed, hleave] at h
      cases h
    | ok _ tree =>
      simp only [placed, hleave] at h ⊢
      cases h
      obtain ⟨content, rfl⟩ := hfile c left rfl hzero
      obtain ⟨hopen, hdeposited⟩ := Staged.open_of_leave hpath hleave
      exact ⟨content, rfl, hopen, hdeposited⟩

theorem writes_byCommand {scratch : Path} {answer : Command → Reply} {path : Text}
    (hpath : WrittenPath.IsRepositoryPath path)
    (hfile : ∀ c left, answer (Staged.checkoutCommand scratch path) = .completed c left →
      c.status = 0 → ∃ content, left = .file content) :
    (byCommand answer).Writes scratch answer path where
  written := by
    rintro ⟨_, m⟩ rfl ⟨c, hresponse, hzero⟩
    obtain ⟨content, hreply, _, hdeposited⟩ := placed_checkout hpath hfile hresponse hzero
    exact ⟨c, content, hreply, hresponse, hdeposited.replaced⟩
  again := by
    rintro ⟨_, m⟩ ⟨_, m'⟩ rfl rfl hway hplace ⟨c, hresponse, hzero⟩
    obtain ⟨content, hreply, hopen, _⟩ := placed_checkout hpath hfile hresponse hzero
    have hopen' : m'.tree.Open (scratch.child path) := by
      refine ⟨fun d hd old hold => ?_, hopen.off, fun hd => hopen.place (hplace hd)⟩
      obtain ⟨content, hcontent⟩ := hway d hd ⟨old, hold⟩
      exact hopen.way d hd content hcontent
    obtain ⟨tree, hleave, _⟩ := Staged.leave_checkout hpath hopen' content
    refine ⟨c, ?_, hzero⟩
    change (placed ⟨_, _⟩ (answer _)).response = _
    rw [hreply, placed_of_leave hleave]
    rfl

theorem laysCopies_placing (reply : List Invocation → Invocation → Reply) (scratch : Path) :
    (placing reply).LaysCopies scratch := by
  intro past now path hcommand hpath hfree hplace
  change (∀ k, (placed now (reply past now)).tree.find k = now.tree.find k) ∨
    now.tree.Laid (placed now (reply past now)).tree (scratch.child path)
  cases reply past now with
  | notStarted failure => exact .inl fun _ => rfl
  | completed c left =>
    rw [tree_placed_completed, hcommand]
    by_cases hleft : left = .nothing
    · rw [hleft]
      refine .inl fun k => ?_
      simp only [Command.leave, Staged.checkoutCommand_target]
      rfl
    · exact .inr (Staged.leave_lays hpath hfree hplace hleft)

end Programs

end CommitGate
